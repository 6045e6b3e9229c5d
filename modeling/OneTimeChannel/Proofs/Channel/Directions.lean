/-
  The two directions of a channel do not interfere.

  A channel is two halves, one that sends and one that receives, and what they share neither of them
  changes (`Alike`).  So two channels that are alike can be joined: the one gives the half that sends,
  the other the half that receives (`join`).  What carries the proof is that a step of a joined channel is a
  step of one half: sending commutes with joining (`dispatch_join`), and so does receiving
  (`receive_join`).  Both come from one fact about key sources each, that keys are handed out in the one
  direction without a look at the other.

  A run in which the steps of both directions are mixed is then the two runs of the halves, joined
  (`performAll_join`).  How they are mixed cannot be seen, neither in what the steps answer nor in the
  channel that is left.
-/
import OneTimeChannel.Proofs.Channel.Dispatch
import OneTimeChannel.Proofs.Channel.Reception

namespace OneTimeChannel

/-! ## Mixing -/

/-- A list is made of two others, with the elements of each in their order. -/
inductive Interleaves {α β : Type} : List α → List β → List (α ⊕ β) → Prop where
  | nil : Interleaves [] [] []
  | left {as : List α} {bs : List β} {mixed : List (α ⊕ β)} (a : α) (h : Interleaves as bs mixed) :
    Interleaves (a :: as) bs (.inl a :: mixed)
  | right {as : List α} {bs : List β} {mixed : List (α ⊕ β)} (b : β) (h : Interleaves as bs mixed) :
    Interleaves as (b :: bs) (.inr b :: mixed)

/-- Each list is made of its left and its right elements, and in no other way. -/
theorem interleaves_iff {α β : Type} {as : List α} {bs : List β} {mixed : List (α ⊕ β)} :
    Interleaves as bs mixed ↔
      mixed.filterMap Sum.getLeft? = as ∧ mixed.filterMap Sum.getRight? = bs := by
  constructor
  · intro h
    induction h with
    | nil => exact ⟨rfl, rfl⟩
    | left a _ ih => exact ⟨congrArg (a :: ·) ih.1, ih.2⟩
    | right b _ ih => exact ⟨ih.1, congrArg (b :: ·) ih.2⟩
  · rintro ⟨rfl, rfl⟩
    induction mixed with
    | nil => exact .nil
    | cons step rest ih =>
      match step with
      | .inl a => exact .left a ih
      | .inr b => exact .right b ih

namespace Channel

variable {K L : Type} [KeySource K] [KeySource L] {f : K → L}

/-! ## Encoding over key sources -/

theorem encrypt_mapKeys (hf : KeySource.RespectsOutgoing f) (d : Draft) (keys : K) :
    d.encrypt (f keys) = ((d.encrypt keys).1, f (d.encrypt keys).2) := by
  rw [Draft.encrypt, Draft.encrypt]
  split
  · rfl
  · next context hcontext =>
    rw [hf.fetchOutgoing]
    rcases KeySource.fetchOutgoing keys context.finalKeySize with ⟨_ | ⟨id, key⟩, keys'⟩
    · rfl
    · dsimp only
      cases context.finalize key <;> rfl

theorem authenticate_mapKeys (hf : KeySource.RespectsOutgoing f) (d : Draft) (keys : K) :
    d.authenticate (f keys) = ((d.authenticate keys).1, f (d.authenticate keys).2) := by
  rw [Draft.authenticate, Draft.authenticate, hf.fetchOutgoing]
  rcases KeySource.fetchOutgoing keys d.authenticationKeyLength with ⟨_ | ⟨id, key⟩, keys'⟩
  · rfl
  · dsimp only
    split
    · rfl
    · split <;> rfl

theorem complete_mapKeys (hf : KeySource.RespectsOutgoing f) (d : Draft) (keys : K) :
    d.complete (f keys) = ((d.complete keys).1, f (d.complete keys).2) := by
  rw [Draft.complete, Draft.complete, encrypt_mapKeys hf]
  rcases d.encrypt keys with ⟨_ | encrypted, between⟩
  · rfl
  · exact authenticate_mapKeys hf encrypted between

/-- Encoding respects every map that the keys to send with respect. -/
theorem encode_mapKeys (hf : KeySource.RespectsOutgoing f) (c : Channel K) (m : Message) :
    (c.mapKeys f).encode m = ((c.encode m).1.mapKeys f, (c.encode m).2) := by
  -- drafting does not look at the keys
  have hdraft : (c.mapKeys f).draft m = c.draft m := rfl
  rw [encode, encode, hdraft]
  cases c.draft m with
  | error failure => rfl
  | ok d =>
    have havailable : KeySource.outgoingAvailable (c.mapKeys f).keys d.keyLengths
        = KeySource.outgoingAvailable c.keys d.keyLengths := hf.outgoingAvailable _ _
    have hcomplete : d.complete (c.mapKeys f).keys
        = ((d.complete c.keys).1, f (d.complete c.keys).2) := complete_mapKeys hf d c.keys
    dsimp only
    rw [havailable]
    split
    · rw [hcomplete]
      rcases d.complete c.keys with ⟨_ | encoded, keys'⟩ <;> rfl
    · rfl

/-- Decoding knows neither the id of the next message nor the threshold for compression. -/
theorem decode_renumbered (c : Channel K) (m : Message) (nextMessageId : UInt32) (threshold : Nat) :
    ({ c with nextMessageId, compressionThreshold := threshold } : Channel K).decode m
      = ({ (c.decode m).1 with nextMessageId, compressionThreshold := threshold }, (c.decode m).2) := by
  have hexamine : ({ c with nextMessageId, compressionThreshold := threshold } : Channel K).examine m
      = c.examine m := rfl
  rw [decode, decode, hexamine]
  cases c.examine m with
  | error failure => rfl
  | ok e =>
    dsimp only
    split
    · rfl
    · rfl

end Channel

/-! ## Halves -/

/-- A map of what a step returns is a map of its outcome. -/
theorem KeySource.outcome_map {K L α : Type} (f : K → L) (k : K) (r : Except KeyError (α × K)) :
    outcome (f k) (r.map (Prod.map id f)) = ((outcome k r).1, f (outcome k r).2) := by
  rcases r with e | ⟨a, k'⟩
  · rfl
  · rfl

namespace KeyBuffer

/-- Keys to send with are handed out without a look at those to receive with. -/
theorem respectsOutgoing_incoming (incoming : KeyStock) :
    KeySource.RespectsOutgoing fun b : KeyBuffer => { b with incoming } where
  fetchOutgoing b length := by
    have hfetch : KeyBuffer.fetchOutgoing { b with incoming } length
        = (b.fetchOutgoing length).map (Prod.map id fun b' => { b' with incoming }) := by
      rw [KeyBuffer.fetchOutgoing, KeyBuffer.fetchOutgoing]
      split
      · rfl
      · dsimp only
        split
        · rfl
        · split <;> rfl
    show KeySource.outcome _ (KeyBuffer.fetchOutgoing { b with incoming } length) = _
    rw [hfetch]
    exact KeySource.outcome_map _ b (b.fetchOutgoing length)
  outgoingAvailable _ _ := rfl

theorem reserveIncoming?_outgoing (b : KeyBuffer) (outgoing : KeyStock) (requests : List (UInt32 × Nat))
    (taken : Std.TreeSet UInt32) :
    KeyBuffer.reserveIncoming? { b with outgoing } requests taken
      = b.reserveIncoming? requests taken := by
  induction requests generalizing taken with
  | nil => rfl
  | cons request rest ih =>
    rw [reserveIncoming?, reserveIncoming?]
    split
    · exact ih taken
    · dsimp only
      split
      · exact ih _
      · rfl

/-- Keys to receive with are handed out without a look at those to send with. -/
theorem respectsIncoming_outgoing (outgoing : KeyStock) :
    KeySource.RespectsIncoming fun b : KeyBuffer => { b with outgoing } where
  fetchIncoming b first length := by
    have hfetch : KeyBuffer.fetchIncoming { b with outgoing } first length
        = (b.fetchIncoming first length).map (Prod.map id fun b' => { b' with outgoing }) := by
      rw [KeyBuffer.fetchIncoming, KeyBuffer.fetchIncoming]
      split
      · rfl
      · dsimp only
        split <;> rfl
    show KeySource.outcome _ (KeyBuffer.fetchIncoming { b with outgoing } first length) = _
    rw [hfetch]
    exact KeySource.outcome_map _ b (b.fetchIncoming first length)
  incomingAvailable b requests :=
    congrArg Option.isSome (b.reserveIncoming?_outgoing outgoing requests ∅)

end KeyBuffer

namespace Channel

/-- What neither direction of a channel changes is the same in both channels. -/
structure Alike (a b : Channel KeyBuffer) : Prop where
  id_eq : a.id = b.id
  association_eq : a.association = b.association
  codec_eq : a.codec = b.codec
  quantum_eq : a.keys.quantum = b.keys.quantum

/-- The channel that sends as the one does and receives as the other does. -/
def join (sender receiver : Channel KeyBuffer) : Channel KeyBuffer :=
  { sender with keys := { sender.keys with incoming := receiver.keys.incoming } }

/-- A channel is its two halves. -/
theorem join_self (c : Channel KeyBuffer) : join c c = c := rfl

variable {sender receiver : Channel KeyBuffer}

/-- Which of the two gives what they share makes no difference. -/
theorem join_eq (h : Alike sender receiver) :
    join sender receiver
      = { receiver.mapKeys fun b => { b with outgoing := sender.keys.outgoing } with
          nextMessageId := sender.nextMessageId
          compressionThreshold := sender.compressionThreshold } := by
  obtain ⟨id, association, ⟨quantum, outgoing, incoming, hpos⟩, next, threshold, codec⟩ := sender
  obtain ⟨hid, hassociation, hcodec, hquantum⟩ := h
  subst hid hassociation hcodec hquantum
  rfl

theorem Alike.dispatch (h : Alike sender receiver) (d : Dispatch) :
    Alike (sender.dispatch d) receiver := by
  obtain ⟨hid, hassociation, hcodec⟩ := frame_dispatch sender d
  have hquantum : (sender.dispatch d).keys.quantum = sender.keys.quantum := by
    match d with
    | .keys bytes => rfl
    | .threshold bytes => rfl
    | .message m =>
      exact encode_keeps (P := fun keys => keys.quantum = sender.keys.quantum)
        (fun keys length h => (KeyBuffer.fetchOutgoing_frame keys length).1.trans h) rfl
  constructor
  · rw [hid, h.id_eq]
  · rw [hassociation, h.association_eq]
  · rw [hcodec, h.codec_eq]
  · rw [hquantum, h.quantum_eq]

theorem Alike.receive (h : Alike sender receiver) (a : Arrival) :
    Alike sender (receiver.receive a) := by
  have hframe : receiver.receive a = { receiver with keys := (receiver.receive a).keys } :=
    frame_receiveAll receiver [a]
  have hquantum : (receiver.receive a).keys.quantum = receiver.keys.quantum :=
    quantum_receiveAll receiver [a]
  constructor
  · rw [hframe, h.id_eq]
  · rw [hframe, h.association_eq]
  · rw [hframe, h.codec_eq]
  · rw [hquantum, h.quantum_eq]

/-! ## One step -/

/-- A joined channel encodes as the half that sends. -/
theorem encode_join (sender receiver : Channel KeyBuffer) (m : Message) :
    (join sender receiver).encode m = (join (sender.encode m).1 receiver, (sender.encode m).2) :=
  encode_mapKeys (KeyBuffer.respectsOutgoing_incoming receiver.keys.incoming) sender m

/-- A joined channel decodes as the half that receives. -/
theorem decode_join (h : Alike sender receiver) (m : Message) :
    (join sender receiver).decode m = (join sender (receiver.decode m).1, (receiver.decode m).2) := by
  have hafter : Alike sender (receiver.decode m).1 := h.receive (.message m)
  have hmap := decode_mapKeys (KeyBuffer.respectsIncoming_outgoing sender.keys.outgoing) receiver m
  rw [join_eq h, join_eq hafter, decode_renumbered, hmap]

theorem dispatch_join (sender receiver : Channel KeyBuffer) (d : Dispatch) :
    (join sender receiver).dispatch d = join (sender.dispatch d) receiver := by
  match d with
  | .keys bytes => rfl
  | .threshold bytes => rfl
  | .message m =>
    show ((join sender receiver).encode m).1 = join (sender.encode m).1 receiver
    rw [encode_join]

theorem receive_join (h : Alike sender receiver) (a : Arrival) :
    (join sender receiver).receive a = join sender (receiver.receive a) := by
  match a with
  | .keys bytes =>
    rw [join_eq h, join_eq (h.receive (.keys bytes))]
    rfl
  | .message m =>
    show ((join sender receiver).decode m).1 = join sender (receiver.decode m).1
    rw [decode_join h]

/-! ## What steps answer -/

/-- What the caller of a step gets: nothing for keys and settings, and for a message the result and the
    message that is left in its place. -/
abbrev Answer := Option (Except Failure Message × Message)

def dispatchAnswer (c : Channel KeyBuffer) : Dispatch → Answer
  | .keys _ => none
  | .threshold _ => none
  | .message m => some ((c.encode m).2, InPlace.left (InPlace.encode.run ⟨c, m⟩))

def arrivalAnswer (c : Channel KeyBuffer) : Arrival → Answer
  | .keys _ => none
  | .message m => some ((c.decode m).2, InPlace.left (InPlace.decode.run ⟨c, m⟩))

theorem dispatchAnswer_join (sender receiver : Channel KeyBuffer) (d : Dispatch) :
    (join sender receiver).dispatchAnswer d = sender.dispatchAnswer d := by
  match d with
  | .keys bytes => rfl
  | .threshold bytes => rfl
  | .message m =>
    rw [dispatchAnswer, dispatchAnswer, InPlace.left_run_encode, InPlace.left_run_encode, encode_join]

theorem arrivalAnswer_join (h : Alike sender receiver) (a : Arrival) :
    (join sender receiver).arrivalAnswer a = receiver.arrivalAnswer a := by
  match a with
  | .keys bytes => rfl
  | .message m =>
    rw [arrivalAnswer, arrivalAnswer, InPlace.left_run_decode, InPlace.left_run_decode, decode_join h]

/-! ## Runs -/

/-- The channel after several dispatches, one after the other. -/
def dispatchAll (c : Channel KeyBuffer) (dispatches : List Dispatch) : Channel KeyBuffer :=
  dispatches.foldl dispatch c

/-- Each dispatch of a run with its answer. -/
def dispatchAnswers (c : Channel KeyBuffer) : List Dispatch → List (Dispatch × Answer)
  | [] => []
  | d :: rest => (d, c.dispatchAnswer d) :: (c.dispatch d).dispatchAnswers rest

/-- Each arrival of a run with its answer. -/
def arrivalAnswers (c : Channel KeyBuffer) : List Arrival → List (Arrival × Answer)
  | [] => []
  | a :: rest => (a, c.arrivalAnswer a) :: (c.receive a).arrivalAnswers rest

/-- The channel after a step in either direction. -/
def perform (c : Channel KeyBuffer) : Dispatch ⊕ Arrival → Channel KeyBuffer
  | .inl d => c.dispatch d
  | .inr a => c.receive a

/-- The channel after steps in both directions, one after the other. -/
def performAll (c : Channel KeyBuffer) (steps : List (Dispatch ⊕ Arrival)) : Channel KeyBuffer :=
  steps.foldl perform c

/-- Each step of a run in both directions with its answer. -/
def answers (c : Channel KeyBuffer) :
    List (Dispatch ⊕ Arrival) → List ((Dispatch × Answer) ⊕ (Arrival × Answer))
  | [] => []
  | .inl d :: rest => .inl (d, c.dispatchAnswer d) :: (c.dispatch d).answers rest
  | .inr a :: rest => .inr (a, c.arrivalAnswer a) :: (c.receive a).answers rest

variable {dispatches : List Dispatch} {arrivals : List Arrival} {steps : List (Dispatch ⊕ Arrival)}

/-- A run of a joined channel is a run of each half. -/
theorem performAll_join (hsteps : Interleaves dispatches arrivals steps) (h : Alike sender receiver) :
    (join sender receiver).performAll steps
      = join (sender.dispatchAll dispatches) (receiver.receiveAll arrivals) := by
  induction hsteps generalizing sender receiver with
  | nil => rfl
  | @left dispatches arrivals steps d _ ih =>
    show ((join sender receiver).dispatch d).performAll steps
      = join ((sender.dispatch d).dispatchAll dispatches) (receiver.receiveAll arrivals)
    rw [dispatch_join]
    exact ih (h.dispatch d)
  | @right dispatches arrivals steps a _ ih =>
    show ((join sender receiver).receive a).performAll steps
      = join (sender.dispatchAll dispatches) ((receiver.receive a).receiveAll arrivals)
    rw [receive_join h]
    exact ih (h.receive a)

/-- The answers in a run of a joined channel are those of each half. -/
theorem answers_join (hsteps : Interleaves dispatches arrivals steps) (h : Alike sender receiver) :
    Interleaves (sender.dispatchAnswers dispatches) (receiver.arrivalAnswers arrivals)
      ((join sender receiver).answers steps) := by
  induction hsteps generalizing sender receiver with
  | nil => exact .nil
  | left d _ ih =>
    rw [answers, dispatch_join, dispatchAnswer_join]
    exact .left _ (ih (h.dispatch d))
  | right a _ ih =>
    rw [answers, receive_join h, arrivalAnswer_join h]
    exact .right _ (ih (h.receive a))

/-- The two directions of a channel do not interfere, in whatever state it is and however steps of both
    are mixed.  Each step answers what it answers where the steps of its direction run alone, also where
    it fails; and the channel at the end sends as the one run leaves it and receives as the other does,
    so that it does not depend on how the steps were mixed. -/
theorem directions_independent (hsteps : Interleaves dispatches arrivals steps) (c : Channel KeyBuffer) :
    Interleaves (c.dispatchAnswers dispatches) (c.arrivalAnswers arrivals) (c.answers steps)
      ∧ c.performAll steps = join (c.dispatchAll dispatches) (c.receiveAll arrivals)
      ∧ ∀ steps', Interleaves dispatches arrivals steps' →
        c.performAll steps' = c.performAll steps := by
  have halike : Alike c c := ⟨rfl, rfl, rfl, rfl⟩
  have hrun : ∀ steps', Interleaves dispatches arrivals steps' →
      c.performAll steps' = join (c.dispatchAll dispatches) (c.receiveAll arrivals) := by
    intro steps' hsteps'
    have hjoined := performAll_join hsteps' halike
    rwa [join_self] at hjoined
  refine ⟨?_, hrun steps hsteps, ?_⟩
  · have hanswers := answers_join hsteps halike
    rwa [join_self] at hanswers
  · intro steps' hsteps'
    rw [hrun steps' hsteps', hrun steps hsteps]

/-- A channel that encrypts what it sends and decrypts what it receives, with no keys yet. -/
def padEnd : Channel KeyBuffer :=
  { padSender with
    association := padSender.association.set .encryptionIncoming { algorithm := .pad [] } }

/-- One message twice, with keys for it delivered in between. -/
def lateDispatches : List Dispatch :=
  let m := (Message.ofPayload 9 [7]).withEncryption true
  [.message m, .keys (List.replicate 12 5), .message m]

/-- One message three times, with a key for it delivered after the first. -/
def lateArrivals : List Arrival :=
  let header := { length := 21, flags := 0x23, channelId := 1, encryptionKeyId := 1 }
  let m := { header, payload := [7] }
  [.message m, .keys [1, 2, 3, 4], .message m, .message m]

theorem directions_independent_padEnd :
    (padEnd.dispatchAnswers lateDispatches).map (·.2.map (·.1.isOk)) = [some false, none, some true]
      ∧ (padEnd.arrivalAnswers lateArrivals).map (·.2.map (·.1.isOk))
        = [some false, none, some true, some false]
      ∧ ∃ steps, Interleaves lateDispatches lateArrivals steps
        ∧ Interleaves (padEnd.dispatchAnswers lateDispatches) (padEnd.arrivalAnswers lateArrivals)
          (padEnd.answers steps)
        ∧ padEnd.performAll steps
          = join (padEnd.dispatchAll lateDispatches) (padEnd.receiveAll lateArrivals) := by
  have hsteps : Interleaves lateDispatches lateArrivals _ :=
    .right _ (.left _ (.left _ (.right _ (.right _ (.left _ (.right _ .nil))))))
  obtain ⟨hanswers, hrun, -⟩ := directions_independent hsteps padEnd
  refine ⟨?_, ?_, _, hsteps, hanswers, hrun⟩
  · simp only [dispatchAnswers, lateDispatches, dispatchAnswer, InPlace.left_run_encode]
    cbv
  · simp only [arrivalAnswers, lateArrivals, arrivalAnswer, InPlace.left_run_decode]
    cbv

end Channel

end OneTimeChannel

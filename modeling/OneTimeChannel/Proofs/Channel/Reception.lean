/-
  A receiver uses no quantum twice.

  What a receiver meets is a sequence of arrivals, each a delivery of key bytes or a message.  The
  messages may be anything: genuine, forged, reordered, repeated.  The invariant is
  `KeyBuffer.Receives`: what is held and what was used are apart, and together they are what was
  delivered.  A decoding moves the quanta that it takes from one to the other (`Receives.decode`), so
  the record of a whole run lists no quantum twice.

  A message that was verified has used up the key that verified it.  So no later message that names
  this key is accepted, and the message itself, if it comes again, is refused for want of keys.
-/
import OneTimeChannel.Proofs.Channel.Ledger
import OneTimeChannel.Proofs.Channel.TamperDetection
import OneTimeChannel.Proofs.Keys.Buffer

namespace OneTimeChannel

open KeyBuffer (Receives requestedIds)
open KeyStock (idsFrom quantaFor)

/-- What reaches a receiver. -/
inductive Arrival where
  | keys (bytes : Bytes)
  | message (m : Message)

/-- The key bytes among the arrivals. -/
def Arrival.delivered : List Arrival → Bytes
  | [] => []
  | keys bytes :: rest => bytes ++ delivered rest
  | message _ :: rest => delivered rest

theorem Arrival.delivered_append (before later : List Arrival) :
    delivered (before ++ later) = delivered before ++ delivered later := by
  induction before with
  | nil => rfl
  | cons arrival rest ih => cases arrival <;> simp [delivered, ih]

namespace Channel

variable {c : Channel KeyBuffer} {m m' : Message} {stream : Bytes} {used : List UInt32} {q : Nat}

/-- The channel after an arrival. -/
def receive (c : Channel KeyBuffer) : Arrival → Channel KeyBuffer
  | .keys bytes => { c with keys := c.keys.pushIncoming bytes }
  | .message m => (c.decode m).1

/-- The channel after several arrivals, one after the other. -/
def receiveAll (c : Channel KeyBuffer) (arrivals : List Arrival) : Channel KeyBuffer :=
  arrivals.foldl receive c

/-- The ids of the quanta that decoding a message uses. -/
def quantaUsed (c : Channel KeyBuffer) (m : Message) : List UInt32 :=
  requestedIds c.keys.quantum (c.keysTaken m)

/-- The ids of the quanta that the arrivals use up, in the order of their use. -/
def quantaUsedByAll (c : Channel KeyBuffer) : List Arrival → List UInt32
  | [] => []
  | .keys bytes :: rest => (c.receive (.keys bytes)).quantaUsedByAll rest
  | .message m :: rest => c.quantaUsed m ++ (c.receive (.message m)).quantaUsedByAll rest

/-! ## One message -/

/-- The record of the source accounts for all that was used beside `used`. -/
def Accounts (q : Nat) (stream : Bytes) (used : List UInt32) (l : Ledger KeyBuffer) : Prop :=
  l.source.quantum = q ∧ l.source.Receives stream (used ++ requestedIds q l.received)

theorem accounts_fetchIncoming {l : Ledger KeyBuffer} (h : Accounts q stream used l) (id : UInt32)
    (length : Nat) : Accounts q stream used (KeySource.fetchIncoming l id length).2 := by
  obtain ⟨hquantum, hreceives⟩ := h
  have hnote : KeySource.fetchIncoming l id length
      = l.note id length (KeySource.fetchIncoming l.source id length) := rfl
  rw [hnote]
  rcases hfetch : KeySource.fetchIncoming l.source id length with ⟨_ | key, source⟩
  · obtain rfl := KeySource.eq_of_outcome_eq_error hfetch
    exact ⟨hquantum, hreceives⟩
  · have hids : used ++ requestedIds q (l.received ++ [(id, length)])
        = used ++ requestedIds q l.received ++ idsFrom id (quantaFor l.source.quantum length) := by
      simp [requestedIds, hquantum]
    have hsource : source.quantum = q := by
      rw [← hquantum, (KeyBuffer.fetchIncoming_eq_ok_iff.1 hfetch).2]
    refine ⟨hsource, ?_⟩
    simp only [Ledger.note]
    rw [hids]
    exact hreceives.fetchIncoming hfetch

theorem quantum_decode (c : Channel KeyBuffer) (m : Message) :
    (c.decode m).1.keys.quantum = c.keys.quantum :=
  decode_keeps (P := fun keys => keys.quantum = c.keys.quantum)
    (fun keys id length h => (KeyBuffer.fetchIncoming_frame keys id length).1.trans h) rfl

/-- Decoding a message uses the quanta of the keys that it takes, and no others. -/
theorem receives_decode (h : c.keys.Receives stream used) (m : Message) :
    (c.decode m).1.keys.Receives stream (used ++ c.quantaUsed m) := by
  let recorded : Channel (Ledger KeyBuffer) := c.mapKeys fun keys => { source := keys }
  have hdecode : (c.decode m).1.keys = (recorded.decode m).1.keys.source :=
    congrArg (fun r => r.1.keys) (decode_mapKeys Ledger.respects_source.toRespectsIncoming recorded m)
  have hstart : Accounts c.keys.quantum stream used recorded.keys :=
    ⟨rfl, by simpa [recorded, mapKeys, requestedIds] using h⟩
  rw [hdecode]
  exact (decode_keeps (P := Accounts c.keys.quantum stream used)
    (fun _ id length hl => accounts_fetchIncoming hl id length) hstart).2

/-! ## Many arrivals -/

/-- The used quanta of a run are those from before and those in its record. -/
theorem receives_receiveAll (h : c.keys.Receives stream used) (arrivals : List Arrival)
    (hbound : (stream ++ Arrival.delivered arrivals).length / c.keys.quantum < 2 ^ 32 - 1) :
    (c.receiveAll arrivals).keys.Receives (stream ++ Arrival.delivered arrivals)
      (used ++ c.quantaUsedByAll arrivals) := by
  induction arrivals generalizing c stream used with
  | nil => simpa [receiveAll, quantaUsedByAll, Arrival.delivered] using h
  | cons arrival rest ih =>
    cases arrival with
    | keys bytes =>
      rw [Arrival.delivered, ← List.append_assoc] at hbound ⊢
      have hle : (stream ++ bytes).length / c.keys.quantum
          ≤ (stream ++ bytes ++ Arrival.delivered rest).length / c.keys.quantum :=
        Nat.div_le_div_right (by simp)
      exact ih (c := c.receive (.keys bytes)) (h.pushIncoming bytes (by omega)) hbound
    | message m =>
      have hquantum : (c.receive (.message m)).keys.quantum = c.keys.quantum := quantum_decode c m
      rw [quantaUsedByAll, ← List.append_assoc]
      exact ih (c := c.receive (.message m)) (receives_decode h m) (by rw [hquantum]; exact hbound)

theorem quantum_receiveAll (c : Channel KeyBuffer) (arrivals : List Arrival) :
    (c.receiveAll arrivals).keys.quantum = c.keys.quantum := by
  induction arrivals generalizing c with
  | nil => rfl
  | cons arrival rest ih =>
    refine (ih (c.receive arrival)).trans ?_
    cases arrival with
    | keys bytes => rfl
    | message m => exact quantum_decode c m

/-- A run changes nothing but the keys. -/
theorem frame_receiveAll (c : Channel KeyBuffer) (arrivals : List Arrival) :
    c.receiveAll arrivals = { c with keys := (c.receiveAll arrivals).keys } := by
  induction arrivals generalizing c with
  | nil => rfl
  | cons arrival rest ih =>
    have hstep : c.receive arrival = { c with keys := (c.receive arrival).keys } := by
      cases arrival with
      | keys bytes => rfl
      | message m => exact decode_fst m
    have hcons : c.receiveAll (arrival :: rest) = (c.receive arrival).receiveAll rest := rfl
    rw [hcons, ih (c.receive arrival), hstep]

/-! ## What was verified is used up -/

/-- The message comes as far as the verification of its tag: it is accepted, or taken for a forgery
    although its tag has the right length. -/
def ReachesVerification (c : Channel KeyBuffer) (m : Message) : Prop :=
  (∃ o, (c.decode m).2 = .ok o)
    ∨ m.tag.length = c.incomingTagLength
      ∧ ∃ failure, (c.decode m).2 = .error failure ∧ failure.kind = .notAuthentic

/-- Such a message was examined, and the key that it names for authentication was taken. -/
theorem fetched_of_reachesVerification {authentication : Context}
    (hfresh : c.fresh .authenticationIncoming = .ok authentication)
    (hsize : authentication.resultSize = c.incomingTagLength) (hm : c.ReachesVerification m) :
    ∃ e key verified, c.examine m = .ok e
      ∧ KeySource.fetchIncoming c.keys m.header.authenticationKeyId e.authenticationKeyLength
        = (.ok key, verified)
      ∧ ((c.decode m).1.keys = verified ∨ (c.decode m).1.keys = (decrypt m e verified).2) := by
  rcases hm with ⟨o, hok⟩ | ⟨htag, failure, herror, hkind⟩
  · obtain ⟨e, hexamine, -, hopened⟩ := stages_of_decode_eq_ok hok
    obtain ⟨verified, payload, content, hverify, hdecrypt, -⟩ := opened_eq_ok_iff.1 hopened
    obtain ⟨key, hfetch, -⟩ := verify_eq_ok_iff.1 hverify
    exact ⟨e, key, verified, hexamine, hfetch, Or.inr (by rw [hdecrypt])⟩
  · cases hexamine : c.examine m with
    | error cause =>
      rw [decode_of_refused hexamine] at herror
      cases herror
      obtain ⟨authentication', hfresh', hne⟩ := tag_length_ne_of_examine hexamine hkind
      rw [hfresh] at hfresh'
      cases hfresh'
      exact absurd (htag.trans hsize.symm) hne
    | ok e =>
      cases hkeys : KeySource.incomingAvailable c.keys (e.requests m.header) with
      | false =>
        rw [decode_of_keysMissing hexamine hkeys] at herror
        cases herror
        cases hkind
      | true =>
        rw [decode_of_available hexamine hkeys] at herror ⊢
        have hverify := verify_of_opened (Prod.ext herror rfl) hkind
        obtain ⟨key, hfetch⟩ := fetchIncoming_of_verify hverify hkind
        exact ⟨e, key, _, rfl, hfetch, Or.inl rfl⟩

section Hash

variable {h : EvaluationHash}
  (hauth : c.association.authenticationIncoming.algorithm = .evaluationHash h)
include hauth

theorem authenticationKeyLength_of_examine {e : Examined} (he : c.examine m = .ok e) :
    e.authenticationKeyLength = h.bytes := by
  obtain ⟨authentication, encryption, hchecks, rfl⟩ := examine_eq_ok_iff.1 he
  have hfresh := hchecks.authentication_eq
  rw [fresh_of_evaluationHash hauth] at hfresh
  cases hfresh
  rw [Examined.authenticationKeyLength, authentication_examined, Context.finalKeySize, hauth]
  rfl

/-- The key that a message names for authentication has at least the quantum that it names. -/
theorem authenticationKeyId_mem {e : Examined} (he : c.examine m = .ok e) (id : UInt32) :
    id ∈ idsFrom id (quantaFor c.keys.quantum e.authenticationKeyLength) := by
  have hpos : 0 < quantaFor c.keys.quantum e.authenticationKeyLength := by
    have hbytes : e.authenticationKeyLength ≤ 32 ∧ 0 < e.authenticationKeyLength := by
      rw [authenticationKeyLength_of_examine hauth he]
      exact ⟨h.bytes_le, h.bytes_pos⟩
    have hpieces := pieceCount_pos c.keys.quantum_pos hbytes.2
    have hle := pieceCount_le c.keys.quantum_pos e.authenticationKeyLength
    rw [KeyStock.quantaFor_eq (by omega)]
    exact hpieces
  obtain ⟨count, hcount⟩ := Nat.exists_eq_add_one.2 hpos
  rw [hcount, KeyStock.idsFrom_succ]
  exact List.mem_cons_self

/-- A message that reaches the verification leaves its authentication key used. -/
theorem used_of_reachesVerification (hkeys : c.keys.Receives stream used)
    (hm : c.ReachesVerification m) : ∃ used', (c.decode m).1.keys.Receives stream used'
      ∧ m.header.authenticationKeyId ∈ used' := by
  obtain ⟨e, key, verified, hexamine, hfetch, hafter⟩ :=
    fetched_of_reachesVerification (fresh_of_evaluationHash hauth) rfl hm
  have hverified : ∃ used', verified.Receives stream used'
      ∧ m.header.authenticationKeyId ∈ used' :=
    ⟨_, hkeys.fetchIncoming hfetch,
      List.mem_append_right _ (authenticationKeyId_mem hauth hexamine _)⟩
  rcases hafter with hafter | hafter
  · rw [hafter]
    exact hverified
  · rw [hafter]
    refine decrypt_keeps (P := fun keys : KeyBuffer => ∃ used', keys.Receives stream used'
      ∧ m.header.authenticationKeyId ∈ used') ?_ hverified
    rintro keys id length ⟨used', hreceives, hmem⟩
    obtain ⟨more, hmore⟩ := hreceives.exists_receives_fetchIncoming id length
    exact ⟨_, hmore, List.mem_append_left _ hmem⟩

/-- A message that names a used key for authentication is not accepted, and where nothing else is wrong
    with it, it lacks keys. -/
theorem decode_of_mem_used (hkeys : c.keys.Receives stream used)
    (hid : m.header.authenticationKeyId ∈ used) :
    (∀ o, (c.decode m).2 ≠ .ok o)
      ∧ ∀ e, c.examine m = .ok e →
        c.decode m = (c, .error (.incomingKeysMissing c.id m.header.messageId)) := by
  have hmissing : ∀ e, c.examine m = .ok e →
      KeySource.incomingAvailable c.keys (e.requests m.header) = false := by
    intro e he
    rw [Bool.eq_false_iff]
    intro havailable
    have hheld := (KeyBuffer.incomingAvailable_iff.1 havailable).2 m.header.authenticationKeyId
      (List.mem_append_left _ (authenticationKeyId_mem hauth he _))
    exact (hkeys.mem_held_iff.1 hheld).2.2 hid
  constructor
  · intro o hok
    obtain ⟨e, hexamine, havailable, -⟩ := stages_of_decode_eq_ok hok
    rw [hmissing e hexamine] at havailable
    cases havailable
  · intro e he
    exact decode_of_keysMissing he (hmissing e he)

end Hash

/-- Over a whole run no incoming quantum is used twice, be it for two messages or for the two keys of
    one.  After a message `m` that reached the verification, no message that names the same key for
    authentication is accepted any more; and if `m` itself was accepted and comes again, keys are
    missing, and neither the channel nor the message is changed. -/
theorem no_replay {h : EvaluationHash}
    (hauth : c.association.authenticationIncoming.algorithm = .evaluationHash h)
    {sent received : Bytes} (hkeys : KeyBuffer.Reached q sent received c.keys)
    (arrivals : List Arrival)
    (hbound : (received ++ Arrival.delivered arrivals).length / q < 2 ^ 32 - 1) :
    (c.quantaUsedByAll arrivals).Nodup
      ∧ ∀ before m later rest, arrivals = before ++ .message m :: later ++ rest →
        (c.receiveAll before).ReachesVerification m →
        ∀ afterwards, afterwards = c.receiveAll (before ++ .message m :: later) →
          (∀ m' : Message, m'.header.authenticationKeyId = m.header.authenticationKeyId →
            ∀ o, (afterwards.decode m').2 ≠ .ok o)
          ∧ ((∃ o, ((c.receiveAll before).decode m).2 = .ok o) →
            ∃ failure, afterwards.decode m = (afterwards, .error failure)
              ∧ failure.kind = .keysMissing
              ∧ InPlace.decode.run ⟨afterwards, m⟩ = .error failure ⟨afterwards, m⟩) := by
  have hpart : ∀ first second, arrivals = first ++ second →
      (received ++ Arrival.delivered first).length / c.keys.quantum < 2 ^ 32 - 1 := by
    rintro first second rfl
    rw [hkeys.quantum_eq]
    refine Nat.lt_of_le_of_lt (Nat.div_le_div_right ?_) hbound
    simp [Arrival.delivered_append]
  have hstart : received.length / q < 2 ^ 32 - 1 := by
    have hnone := hpart [] arrivals rfl
    rwa [hkeys.quantum_eq, Arrival.delivered, List.append_nil] at hnone
  obtain ⟨used, hused⟩ := hkeys.exists_receives hstart
  refine ⟨?_, ?_⟩
  · have hrun := receives_receiveAll hused arrivals (hpart arrivals [] (by simp))
    exact hrun.used_nodup.of_append_right
  rintro before m later rest rfl hverified afterwards rfl
  have hbefore := frame_receiveAll c before
  have hafterwards := frame_receiveAll c (before ++ .message m :: later)
  -- the message uses its key, and the rest of the run does not bring it back
  obtain ⟨used', hused', hmem⟩ := used_of_reachesVerification (h := h) (by rw [hbefore]; exact hauth)
    (receives_receiveAll hused before (hpart before (.message m :: later ++ rest) (by simp)))
    hverified
  have hsplit : c.receiveAll (before ++ .message m :: later)
      = ((c.receiveAll before).decode m).1.receiveAll later := List.foldl_append
  have hquantum : ((c.receiveAll before).decode m).1.keys.quantum = c.keys.quantum := by
    rw [quantum_decode, quantum_receiveAll]
  have hlater := receives_receiveAll hused' later (by
    have hall := hpart (before ++ .message m :: later) rest rfl
    rwa [Arrival.delivered_append, Arrival.delivered, ← List.append_assoc, ← hquantum] at hall)
  rw [← hsplit] at hlater
  have hgone := List.mem_append_left
    (((c.receiveAll before).decode m).1.quantaUsedByAll later) hmem
  refine ⟨?_, ?_⟩
  · intro m' hid
    exact (decode_of_mem_used (h := h) (by rw [hafterwards]; exact hauth) hlater
      (by rw [hid]; exact hgone)).1
  · rintro ⟨o, hok⟩
    obtain ⟨e, hexamine, -⟩ := stages_of_decode_eq_ok hok
    have hexamine' : (c.receiveAll (before ++ .message m :: later)).examine m = .ok e := by
      rw [← hexamine, hbefore, hafterwards]
      rfl
    have hmissing := (decode_of_mem_used (h := h) (by rw [hafterwards]; exact hauth) hlater
      hgone).2 e hexamine'
    refine ⟨_, hmissing, rfl, ?_⟩
    rw [InPlace.run_decode, hmissing, settled_error]

theorem no_replay_messageByX :
    (receiverByX.quantaUsedByAll [.message messageByX]).Nodup
      ∧ ∃ failure, (receiverByX.receiveAll [.message messageByX]).decode messageByX
          = (receiverByX.receiveAll [.message messageByX], .error failure)
        ∧ failure.kind = .keysMissing
        ∧ InPlace.decode.run ⟨receiverByX.receiveAll [.message messageByX], messageByX⟩
          = .error failure ⟨receiverByX.receiveAll [.message messageByX], messageByX⟩ := by
  obtain ⟨hnodup, hreplay⟩ := no_replay (c := receiverByX) (q := 4) (h := hashByX) rfl
    (.pushIncoming (.new rfl) [1, 2, 3, 4]) [.message messageByX] (by decide)
  have hagain := hreplay [] messageByX [] [] rfl (Or.inl ⟨_, accepts_messageByX⟩) _ rfl
  exact ⟨hnodup, hagain.2 ⟨_, accepts_messageByX⟩⟩

end Channel

end OneTimeChannel

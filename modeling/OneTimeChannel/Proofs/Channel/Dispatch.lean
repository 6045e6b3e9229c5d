/-
  A sender uses no quantum and no message id twice.

  What a sender does is a sequence of dispatches, each a delivery of key bytes, a new threshold for
  compression, or a message to encode.  A message that is encoded takes the quanta that follow those
  that were used, first for encryption and then for authentication (`sends_of_complete`).  So over a
  run the quanta of the encoded messages, in the order of encoding, are a part of 1, 2, 3, …, in this
  order (`sublist_quanta`): a part only, since a message that fails may have used up keys, too.  All
  that is to be said about key ids follows from it.
-/
import OneTimeChannel.Proofs.Channel.Encode
import OneTimeChannel.Proofs.Keys.Availability

namespace OneTimeChannel

open KeyStock (idsFrom quantaFor keyAt)

/-- What a sender is told to do. -/
inductive Dispatch where
  | keys (bytes : Bytes)
  | threshold (bytes : Nat)
  | message (m : Message)

/-- The key bytes among the dispatches. -/
def Dispatch.delivered : List Dispatch → Bytes
  | [] => []
  | keys bytes :: rest => bytes ++ delivered rest
  | threshold _ :: rest => delivered rest
  | message _ :: rest => delivered rest

/-- A message that was encoded: as it was given, as it was drafted, and as it goes out. -/
structure Sending where
  given : Message
  draft : Channel.Draft
  encoded : Message

namespace Sending

variable (s : Sending)

/-- The ids of the quanta that the key ids of the header stand for. -/
def quanta (q : Nat) : List UInt32 :=
  idsFrom s.encoded.header.encryptionKeyId (quantaFor q s.draft.encryptionKeyLength)
    ++ idsFrom s.encoded.header.authenticationKeyId (quantaFor q s.draft.authenticationKeyLength)

/-- The key ids in the header that stand for a key, in the order of their use. -/
def keyIds : List UInt32 :=
  [s.encoded.header.encryptionKeyId, s.encoded.header.authenticationKeyId].filter (· != 0)

end Sending

namespace Channel

/-- The draft after encryption with a key. -/
def Draft.maybeEncrypted (d : Draft) (id : UInt32) (key : Key) : Draft :=
  match d.encryption with
  | none => d
  | some context => d.encrypted id (context.algorithm.result key)

/-- The message that comes of a draft with keys for encryption and authentication and their ids. -/
def Draft.completed (d : Draft) (encryption authentication : UInt32 × Key) : Message :=
  let encrypted := d.maybeEncrypted encryption.1 encryption.2
  let header := encrypted.sealedHeader authentication.1
  { header
    payload := encrypted.payload
    tag := (sealedAlgorithm d.authentication header encrypted.payload).result authentication.2 }

end Channel

open Channel (Draft)

/-- The message was encoded with two keys of a stream, where they are needed. -/
structure Sending.SentFrom (q : Nat) (stream : Bytes) (s : Sending) : Prop where
  pieceCount_lt : ∀ length ∈ s.draft.keyLengths, pieceCount q length < 2 ^ 32
  encryptionKeyId_eq_zero_iff :
    s.encoded.header.encryptionKeyId = 0 ↔ s.draft.encryptionKeyLength = 0
  authenticationKeyId_eq_zero_iff :
    s.encoded.header.authenticationKeyId = 0 ↔ s.draft.authenticationKeyLength = 0
  keyIds_sublist : List.Sublist s.keyIds (s.quanta q)
  length_encryptionKey :
    (keyAt q stream s.encoded.header.encryptionKeyId s.draft.encryptionKeyLength).length
      = s.draft.encryptionKeyLength
  length_authenticationKey :
    (keyAt q stream s.encoded.header.authenticationKeyId s.draft.authenticationKeyLength).length
      = s.draft.authenticationKeyLength
  encoded_eq : s.encoded = s.draft.completed
    (s.encoded.header.encryptionKeyId,
      keyAt q stream s.encoded.header.encryptionKeyId s.draft.encryptionKeyLength)
    (s.encoded.header.authenticationKeyId,
      keyAt q stream s.encoded.header.authenticationKeyId s.draft.authenticationKeyLength)

/-- The keys stay the same when the stream goes on. -/
theorem Sending.SentFrom.append {q : Nat} {stream : Bytes} {s : Sending} (h : s.SentFrom q stream)
    (bytes : Bytes) : s.SentFrom q (stream ++ bytes) where
  pieceCount_lt := h.pieceCount_lt
  encryptionKeyId_eq_zero_iff := h.encryptionKeyId_eq_zero_iff
  authenticationKeyId_eq_zero_iff := h.authenticationKeyId_eq_zero_iff
  keyIds_sublist := h.keyIds_sublist
  length_encryptionKey := by
    rw [KeyStock.keyAt_append h.length_encryptionKey]
    exact h.length_encryptionKey
  length_authenticationKey := by
    rw [KeyStock.keyAt_append h.length_authenticationKey]
    exact h.length_authenticationKey
  encoded_eq := by
    rw [KeyStock.keyAt_append h.length_encryptionKey, KeyStock.keyAt_append h.length_authenticationKey]
    exact h.encoded_eq

namespace Channel

/-- The channel after a dispatch. -/
def dispatch (c : Channel KeyBuffer) : Dispatch → Channel KeyBuffer
  | .keys bytes => { c with keys := c.keys.pushOutgoing bytes }
  | .threshold bytes => c.withCompressionThreshold bytes
  | .message m => (c.encode m).1

/-- The message as it is sent, if encoding it succeeds. -/
def sending (c : Channel KeyBuffer) (m : Message) : List Sending :=
  match c.draft m, (c.encode m).2 with
  | .ok draft, .ok encoded => [{ given := m, draft, encoded }]
  | _, _ => []

/-- The messages that are sent on the dispatches, in this order. -/
def sendings (c : Channel KeyBuffer) : List Dispatch → List Sending
  | [] => []
  | .keys bytes :: rest => (c.dispatch (.keys bytes)).sendings rest
  | .threshold bytes :: rest => (c.dispatch (.threshold bytes)).sendings rest
  | .message m :: rest => c.sending m ++ (c.dispatch (.message m)).sendings rest

variable {c : Channel KeyBuffer} {m encoded : Message} {d d' : Draft} {keys keys' : KeyBuffer}
  {stream : Bytes} {n : Nat}

/-! ## One message -/

theorem messageId_completed (d : Draft) (encryption authentication : UInt32 × Key) :
    (d.completed encryption authentication).header.messageId = d.header.messageId := by
  simp only [Draft.completed, Draft.maybeEncrypted, Draft.sealedHeader]
  cases d.encryption <;> rfl

/-- A key buffer gives a key for encryption in any case, be it the empty one that nobody asks for. -/
theorem fetchOutgoing_of_encrypt (hid : d.header.encryptionKeyId = 0)
    (h : d.encrypt keys = (.ok d', keys')) :
    ∃ key, KeySource.fetchOutgoing keys d.encryptionKeyLength
        = (.ok (d'.header.encryptionKeyId, key), keys')
      ∧ d' = d.maybeEncrypted d'.header.encryptionKeyId key := by
  rcases encrypt_eq_ok_iff.1 h with ⟨hnone, rfl, rfl⟩ | ⟨context, id, key, hsome, hfetch, -, -, rfl⟩
  · refine ⟨.empty, ?_, ?_⟩
    · rw [Draft.encryptionKeyLength, hnone, hid]
      rfl
    · rw [Draft.maybeEncrypted, hnone]
  · refine ⟨key, ?_, ?_⟩
    · rw [Draft.encryptionKeyLength, hsome]
      exact hfetch
    · rw [Draft.maybeEncrypted, hsome]
      rfl

/-- Completing a draft fetches two keys, one after the other. -/
theorem fetchOutgoing_of_complete (hid : d.header.encryptionKeyId = 0)
    (h : d.complete keys = (.ok encoded, keys')) :
    ∃ between encryptionKey authenticationKey,
      KeySource.fetchOutgoing keys d.encryptionKeyLength
          = (.ok (encoded.header.encryptionKeyId, encryptionKey), between)
        ∧ KeySource.fetchOutgoing between d.authenticationKeyLength
          = (.ok (encoded.header.authenticationKeyId, authenticationKey), keys')
        ∧ encoded = d.completed (encoded.header.encryptionKeyId, encryptionKey)
          (encoded.header.authenticationKeyId, authenticationKey) := by
  obtain ⟨d', between, hencrypt, hauthenticate⟩ := complete_eq_ok_iff.1 h
  obtain ⟨encryptionKey, hfetch, hd'⟩ := fetchOutgoing_of_encrypt hid hencrypt
  obtain ⟨id, authenticationKey, tag, hfetch', htag, -, rfl⟩ := authenticate_eq_ok_iff.1 hauthenticate
  have hauth : d'.authentication = d.authentication := by
    rw [hd', Draft.maybeEncrypted]
    split <;> rfl
  obtain ⟨-, -, rfl⟩ := accepts_of_tagOf_eq_ok htag
  refine ⟨between, encryptionKey, authenticationKey, hfetch, ?_, ?_⟩
  · rw [Draft.authenticationKeyLength, ← hauth]
    exact hfetch'
  · simp only [Draft.completed, Draft.sealedHeader, hauth]
    rw [← hd']

/-- A key id that stands for a key is the first id of its quanta. -/
theorem filter_ne_zero_sublist {q length : Nat} {id : UInt32} (hq : 0 < q)
    (hpieces : pieceCount q length < 2 ^ 32) (hid : id = 0 ↔ length = 0) :
    ([id].filter (· != 0)).Sublist (idsFrom id (quantaFor q length)) := by
  rcases Nat.eq_zero_or_pos length with hzero | hpos
  · rw [hid.2 hzero]
    exact List.nil_sublist _
  · obtain ⟨count, hcount⟩ := Nat.exists_eq_add_one.2 (pieceCount_pos hq hpos)
    rw [KeyStock.quantaFor_eq hpieces, hcount, KeyStock.idsFrom_succ]
    exact List.filter_sublist.trans (List.singleton_sublist.2 List.mem_cons_self)

theorem quantum_complete (d : Draft) (keys : KeyBuffer) :
    (d.complete keys).2.quantum = keys.quantum :=
  complete_keeps (P := fun keys' => keys'.quantum = keys.quantum)
    (fun keys' length h => (KeyBuffer.fetchOutgoing_frame keys' length).1.trans h) rfl

/-- Whether a draft is completed or not, the stock is used from the front. -/
theorem exists_sends_complete (hkeys : keys.Sends stream n)
    (hbound : stream.length / keys.quantum < 2 ^ 32 - 1) (d : Draft) :
    ∃ n' ≥ n, (d.complete keys).2.Sends stream n' := by
  refine (complete_keeps (P := fun keys' : KeyBuffer =>
    keys'.quantum = keys.quantum ∧ ∃ n' ≥ n, keys'.Sends stream n') ?_ ?_).2
  · rintro keys' length ⟨hquantum, n', hle, hkeys'⟩
    refine ⟨(KeyBuffer.fetchOutgoing_frame keys' length).1.trans hquantum, ?_⟩
    obtain ⟨n'', hle', hkeys''⟩ := hkeys'.exists_sends_fetchOutgoing (by rwa [hquantum]) length
    exact ⟨n'', Nat.le_trans hle hle', hkeys''⟩
  · exact ⟨rfl, n, Nat.le_refl n, hkeys⟩

/-- A draft that is completed takes the quanta that follow those that were used. -/
theorem sends_of_complete (hkeys : keys.Sends stream n)
    (hbound : stream.length / keys.quantum < 2 ^ 32 - 1) (hid : d.header.encryptionKeyId = 0)
    (havailable : keys.outgoingAvailable d.keyLengths = true)
    (h : d.complete keys = (.ok encoded, keys')) (m : Message) :
    (∃ n', keys'.Sends stream n'
        ∧ idsFrom 1 n' = idsFrom 1 n ++ (Sending.mk m d encoded).quanta keys.quantum)
      ∧ (Sending.mk m d encoded).SentFrom keys.quantum stream := by
  obtain ⟨between, ek, ak, hfetch, hfetch', hencoded⟩ := fetchOutgoing_of_complete hid h
  have hquantum : between.quantum = keys.quantum := by
    have hframe := (KeyBuffer.fetchOutgoing_frame keys d.encryptionKeyLength).1
    rwa [hfetch] at hframe
  have hbound' : stream.length / between.quantum < 2 ^ 32 - 1 := by rwa [hquantum]
  have hpieces : ∀ length ∈ d.keyLengths, pieceCount keys.quantum length < 2 ^ 32 :=
    fun length hmem => hkeys.pieceCount_lt hbound havailable hmem
  have hpieces₁ := hpieces d.encryptionKeyLength (by simp [Draft.keyLengths])
  have hpieces₂ := hpieces d.authenticationKeyLength (by simp [Draft.keyLengths])
  obtain ⟨hsends, hids, hzero₁⟩ := hkeys.fetchOutgoing hbound hfetch
  obtain ⟨hsends', hids', hzero₂⟩ := hsends.fetchOutgoing hbound' hfetch'
  obtain ⟨hek, hlength₁⟩ := hkeys.key_of_fetchOutgoing hbound hpieces₁ hfetch
  obtain ⟨hak, hlength₂⟩ := hsends.key_of_fetchOutgoing hbound' (by rwa [hquantum]) hfetch'
  rw [hquantum] at hids' hak
  refine ⟨⟨_, hsends', ?_⟩, ?_⟩
  · rw [hquantum, hids', hids, List.append_assoc]
    rfl
  · refine ⟨hpieces, hzero₁, hzero₂, ?_, ?_, ?_, ?_⟩
    · have hfilter : (Sending.mk m d encoded).keyIds
          = [encoded.header.encryptionKeyId].filter (· != 0)
            ++ [encoded.header.authenticationKeyId].filter (· != 0) :=
        List.filter_append [encoded.header.encryptionKeyId] [encoded.header.authenticationKeyId]
      rw [hfilter]
      exact (filter_ne_zero_sublist keys.quantum_pos hpieces₁ hzero₁).append
        (filter_ne_zero_sublist keys.quantum_pos hpieces₂ hzero₂)
    · rw [← hek, hlength₁]
    · rw [← hak, hlength₂]
    · rw [← hek, ← hak]
      exact hencoded

theorem sending_of_error {failure : Failure} (h : (c.encode m).2 = .error failure) :
    c.sending m = [] := by
  rw [sending, h]
  cases c.draft m <;> rfl

theorem sending_of_ok (hdraft : c.draft m = .ok d) (h : (c.encode m).2 = .ok encoded) :
    c.sending m = [{ given := m, draft := d, encoded }] := by
  rw [sending, hdraft, h]

/-- Whatever is encoded is sent. -/
theorem sending_of_encode_eq_ok (h : (c.encode m).2 = .ok encoded) :
    ∃ d, c.sending m = [{ given := m, draft := d, encoded }] := by
  rcases encode_cases c m with ⟨failure, hencode⟩ | ⟨d, hdraft, -, -⟩
  · rw [hencode] at h
    cases h
  · exact ⟨d, sending_of_ok hdraft h⟩

theorem draft_of_mem_sending {s : Sending} (h : s ∈ c.sending m) : c.draft s.given = .ok s.draft := by
  rw [sending] at h
  split at h
  · next draft encoded hdraft _ =>
    rw [List.mem_singleton.1 h]
    exact hdraft
  · cases h

/-! ## Many dispatches -/

/-- A dispatch changes neither the id of a channel nor its association nor its codec. -/
theorem frame_dispatch (c : Channel KeyBuffer) (d : Dispatch) :
    (c.dispatch d).id = c.id ∧ (c.dispatch d).association = c.association
      ∧ (c.dispatch d).codec = c.codec := by
  cases d with
  | keys bytes => exact ⟨rfl, rfl, rfl⟩
  | threshold bytes => exact ⟨rfl, rfl, rfl⟩
  | message m =>
    rw [dispatch]
    rcases encode_cases c m with ⟨failure, hencode⟩
      | ⟨d, -, -, ⟨failure, keys', -, hencode⟩ | ⟨encoded, keys', -, hencode⟩⟩ <;>
      · rw [hencode]
        exact ⟨rfl, rfl, rfl⟩

/-- Every message that is sent was drafted by the channel as it was at that time. -/
theorem draft_of_mem_sendings {dispatches : List Dispatch} {s : Sending}
    (h : s ∈ c.sendings dispatches) :
    ∃ earlier : Channel KeyBuffer, earlier.id = c.id ∧ earlier.association = c.association
      ∧ earlier.codec = c.codec ∧ earlier.draft s.given = .ok s.draft := by
  induction dispatches generalizing c with
  | nil => cases h
  | cons d rest ih =>
    have hrest : s ∈ (c.dispatch d).sendings rest → ∃ earlier : Channel KeyBuffer, earlier.id = c.id
        ∧ earlier.association = c.association ∧ earlier.codec = c.codec
        ∧ earlier.draft s.given = .ok s.draft := by
      intro hmem
      obtain ⟨earlier, hid, hassociation, hcodec, hdraft⟩ := ih hmem
      obtain ⟨hid', hassociation', hcodec'⟩ := frame_dispatch c d
      exact ⟨earlier, hid.trans hid', hassociation.trans hassociation', hcodec.trans hcodec', hdraft⟩
    cases d with
    | keys bytes => exact hrest h
    | threshold bytes => exact hrest h
    | message m =>
      rcases List.mem_append.1 h with hnow | hlater
      · exact ⟨c, rfl, rfl, rfl, draft_of_mem_sending hnow⟩
      · exact hrest hlater

/-- The channel has quanta of `q` bytes, was delivered `stream` to send with, has used the first `n` quanta
    of it, and has sent `k` messages. -/
structure Sender (q : Nat) (stream : Bytes) (n k : Nat) (c : Channel KeyBuffer) : Prop where
  quantum_eq : c.keys.quantum = q
  sends : c.keys.Sends stream n
  nextMessageId_eq : c.nextMessageId.toNat = k + 1

/-- The next message id is the successor, since ids do not come round. -/
theorem toNat_nextMessageId {id : UInt32} (h : id + 1 ≠ 0) : (id + 1).toNat = id.toNat + 1 := by
  have hlt := id.toNat_lt
  rcases Nat.lt_or_ge (id.toNat + 1) (2 ^ 32) with hfits | hover
  · exact KeyStock.toNat_add_one hfits
  · have hlast : id.toNat + 1 = 2 ^ 32 := Nat.le_antisymm hlt hover
    refine absurd (UInt32.toNat_inj.1 ?_) h
    rw [UInt32.toNat_add, UInt32.toNat_one, hlast]
    rfl

/-- What encoding a message does to a sender: either nothing is sent, although keys may be lost, or
    the message is sent with the next quanta and the next message id. -/
theorem Sender.encode {q k : Nat} (h : c.Sender q stream n k) (hbound : stream.length / q < 2 ^ 32 - 1)
    (m : Message) :
    (c.sending m = [] ∧ ∃ n' ≥ n, (c.encode m).1.Sender q stream n' k)
      ∨ ∃ s n', c.sending m = [s] ∧ (c.encode m).1.Sender q stream n' (k + 1)
        ∧ idsFrom 1 n' = idsFrom 1 n ++ s.quanta q ∧ s.SentFrom q stream
        ∧ s.encoded.header.messageId.toNat = k + 1 ∧ s.given = m ∧ c.draft m = .ok s.draft := by
  obtain ⟨rfl, hsends, hnext⟩ := h
  rcases encode_cases c m with ⟨failure, hencode⟩ | ⟨d, hdraft, havailable, hcomplete⟩
  · refine Or.inl ⟨sending_of_error (by rw [hencode]), n, Nat.le_refl n, ?_⟩
    rw [hencode]
    exact ⟨rfl, hsends, hnext⟩
  obtain ⟨authentication, encryption, payload, hdrafts, hd⟩ := draft_eq_ok_iff.1 hdraft
  rcases hcomplete with ⟨failure, keys', hcomplete, hencode⟩ | ⟨encoded, keys', hcomplete, hencode⟩
  · refine Or.inl ⟨sending_of_error (by rw [hencode]), ?_⟩
    -- a context that fails does so after its key was taken
    have hquantum := quantum_complete d c.keys
    obtain ⟨n', hle, hsends'⟩ := exists_sends_complete hsends hbound d
    rw [hcomplete] at hquantum hsends'
    rw [hencode]
    exact ⟨n', hle, hquantum, hsends', hnext⟩
  · have hid : d.header.encryptionKeyId = 0 := by rw [hd]; rfl
    obtain ⟨⟨n', hsends', hids⟩, hsent⟩ :=
      sends_of_complete hsends hbound hid havailable hcomplete m
    have hquantum := quantum_complete d c.keys
    rw [hcomplete] at hquantum
    have hid' : encoded.header.messageId = c.nextMessageId := by
      have heq := congrArg (fun message => message.header.messageId) hsent.encoded_eq
      rw [messageId_completed, hd] at heq
      exact heq
    have hnext' : (c.nextMessageId + 1).toNat = k + 1 + 1 := by
      rw [toNat_nextMessageId hdrafts.nextMessageId_ne, hnext]
    refine Or.inr ⟨⟨m, d, encoded⟩, n', sending_of_ok hdraft (by rw [hencode]), ?_, hids, hsent,
      by rw [hid', hnext], rfl, hdraft⟩
    rw [hencode]
    exact ⟨hquantum, hsends', hnext'⟩

/-- Over a run the quanta of the messages that are sent are among those that are used, in their
    order; each message is sent with keys of the stream, and their ids are counted up. -/
theorem Sender.sendings {q k : Nat} (h : c.Sender q stream n k) (dispatches : List Dispatch)
    (hbound : (stream ++ Dispatch.delivered dispatches).length / q < 2 ^ 32 - 1) :
    (∃ last ≤ (stream ++ Dispatch.delivered dispatches).length / q,
        List.Sublist (idsFrom 1 n ++ (c.sendings dispatches).flatMap (·.quanta q)) (idsFrom 1 last))
      ∧ (∀ s ∈ c.sendings dispatches, s.SentFrom q (stream ++ Dispatch.delivered dispatches))
      ∧ (c.sendings dispatches).map (·.encoded.header.messageId.toNat)
        = List.range' (k + 1) (c.sendings dispatches).length := by
  induction dispatches generalizing c stream n k with
  | nil =>
    have hle := h.sends.le (by rw [h.quantum_eq]; simpa [Dispatch.delivered] using hbound)
    rw [h.quantum_eq] at hle
    refine ⟨⟨n, by simpa [Dispatch.delivered] using hle, ?_⟩, ?_, rfl⟩
    · simp [Channel.sendings]
    · simp [Channel.sendings]
  | cons dispatch rest ih =>
    cases dispatch with
    | keys bytes =>
      rw [Dispatch.delivered, ← List.append_assoc] at hbound ⊢
      have hle : (stream ++ bytes).length / q ≤ (stream ++ bytes ++ Dispatch.delivered rest).length / q :=
        Nat.div_le_div_right (by simp)
      have hpush := h.sends.pushOutgoing bytes (by rw [h.quantum_eq]; omega)
      exact ih (c := c.dispatch (.keys bytes)) ⟨h.quantum_eq, hpush, h.nextMessageId_eq⟩ hbound
    | threshold bytes =>
      exact ih (c := c.dispatch (.threshold bytes)) ⟨h.quantum_eq, h.sends, h.nextMessageId_eq⟩ hbound
    | message m =>
      have hle : stream.length / q ≤ (stream ++ Dispatch.delivered rest).length / q :=
        Nat.div_le_div_right (by simp)
      rw [Dispatch.delivered] at hbound ⊢
      rw [Channel.sendings]
      rcases h.encode (by omega) m with ⟨hnone, n', hn, hsender⟩
        | ⟨s, n', hone, hsender, hids, hsent, hid, -⟩
      · obtain ⟨⟨last, hlast, hsub⟩, hall, hnumbers⟩ :=
          ih (c := c.dispatch (.message m)) hsender hbound
        rw [hnone, List.nil_append]
        refine ⟨⟨last, hlast, ?_⟩, hall, hnumbers⟩
        -- keys that a failed message has used up leave a gap in the list
        have hearlier : List.Sublist (idsFrom 1 n) (idsFrom 1 n') := by
          rw [← Nat.add_sub_cancel' hn, KeyStock.idsFrom_append]
          exact List.sublist_append_left _ _
        exact (hearlier.append_right _).trans hsub
      · obtain ⟨⟨last, hlast, hsub⟩, hall, hnumbers⟩ :=
          ih (c := c.dispatch (.message m)) hsender hbound
        rw [hone, List.singleton_append]
        refine ⟨⟨last, hlast, ?_⟩, ?_, ?_⟩
        · rw [hids] at hsub
          rwa [List.flatMap_cons, ← List.append_assoc]
        · rw [List.forall_mem_cons]
          exact ⟨hsent.append _, hall⟩
        · rw [List.map_cons, hid, hnumbers, List.length_cons, List.range'_succ]

/-- Whatever a new channel is told to do, with any codec: the messages that it sends are numbered from
    1 on, no quantum is named twice, be it by two messages or by the two key ids of one, and the key ids
    that stand for keys are counted up, the one for encryption before the one for authentication.  A
    key id is 0 exactly where no key is needed. -/
theorem one_time_use {id : UInt16} {association : Association} {keys : KeyBuffer}
    {c : Channel KeyBuffer} (hc : ofAssociation id association keys = .ok c) {q : Nat}
    {sent received : Bytes} (hkeys : KeyBuffer.Reached q sent received keys) (codec : Codec)
    (dispatches : List Dispatch)
    (hbound : (sent ++ Dispatch.delivered dispatches).length / q < 2 ^ 32 - 1)
    {sendings : List Sending} (hsendings : sendings = (c.withCodec codec).sendings dispatches) :
    (∀ i (hi : i < sendings.length), sendings[i].encoded.header.messageId.toNat = i + 1)
      ∧ (sendings.flatMap (·.quanta q)).Nodup
      ∧ (sendings.flatMap (·.keyIds)).Pairwise (· < ·)
      ∧ ∀ s ∈ sendings,
        (s.encoded.header.encryptionKeyId = 0 ↔ s.draft.encryptionKeyLength = 0)
        ∧ (s.encoded.header.authenticationKeyId = 0 ↔ s.draft.authenticationKeyLength = 0) := by
  obtain rfl : c = { id, association, keys } := by
    rw [ofAssociation] at hc
    split at hc
    · cases hc
    · exact (Except.ok.inj hc).symm
  have hstart : sent.length / q < 2 ^ 32 - 1 :=
    Nat.lt_of_le_of_lt (Nat.div_le_div_right (by simp)) hbound
  obtain ⟨n, hn⟩ := hkeys.exists_sends hstart
  have hsender : Sender q sent n 0 (withCodec { id, association, keys } codec) :=
    ⟨hkeys.quantum_eq, hn, rfl⟩
  obtain ⟨⟨last, hlast, hsub⟩, hall, hnumbers⟩ := hsender.sendings dispatches hbound
  rw [← hsendings] at hsub hall hnumbers
  have hquanta : (sendings.flatMap (·.quanta q)).Sublist (idsFrom 1 last) :=
    (List.sublist_append_right _ _).trans hsub
  have hordered : (idsFrom 1 last).Pairwise (· < ·) :=
    KeyStock.pairwise_lt_idsFrom (by rw [UInt32.toNat_one]; omega)
  -- key ids are first ids of their quanta, so they are ordered as the quanta are
  have hkeyIds : (sendings.flatMap (·.keyIds)).Sublist (sendings.flatMap (·.quanta q)) := by
    clear hsendings hsub hnumbers hquanta
    induction sendings with
    | nil => exact List.Sublist.refl _
    | cons s rest ih =>
      rw [List.forall_mem_cons] at hall
      exact hall.1.keyIds_sublist.append (ih hall.2)
  refine ⟨?_, ?_, ?_, ?_⟩
  · intro i hi
    have hat := List.getElem_of_eq hnumbers (i := i) (by simpa using hi)
    simpa [Nat.add_comm] using hat
  · exact (KeyStock.nodup_idsFrom 1 (by omega)).sublist hquanta
  · exact hordered.sublist (hkeyIds.trans hquanta)
  · intro s hs
    exact ⟨(hall s hs).encryptionKeyId_eq_zero_iff, (hall s hs).authenticationKeyId_eq_zero_iff⟩

/-- A new channel without authentication that encrypts with a pad. -/
def padSender : Channel KeyBuffer where
  id := 1
  association := (Slots.replicate { algorithm := .null }).set .encryptionOutgoing { algorithm := .pad [] }
  keys := .byFour

/-- One message three times, with keys for two of them delivered after the first. -/
def padDispatches : List Dispatch :=
  let m := (Message.ofPayload 9 [7]).withEncryption true
  [.message m, .keys (List.replicate 26 5), .message m, .threshold 0, .message m]

theorem one_time_use_padDispatches :
    (padSender.sendings padDispatches).map (·.quanta 4) = [[1, 2, 3], [4, 5, 6]]
      ∧ (∀ i (hi : i < (padSender.sendings padDispatches).length),
        (padSender.sendings padDispatches)[i].encoded.header.messageId.toNat = i + 1)
      ∧ ((padSender.sendings padDispatches).flatMap (·.quanta 4)).Nodup
      ∧ ((padSender.sendings padDispatches).flatMap (·.keyIds)).Pairwise (· < ·)
      ∧ ∀ s ∈ padSender.sendings padDispatches,
        (s.encoded.header.encryptionKeyId = 0 ↔ s.draft.encryptionKeyLength = 0)
        ∧ (s.encoded.header.authenticationKeyId = 0 ↔ s.draft.authenticationKeyLength = 0) := by
  have hnew : ofAssociation 1 padSender.association padSender.keys = .ok padSender := rfl
  have hkeys : KeyBuffer.Reached 4 [] [] padSender.keys := .new rfl
  exact ⟨by cbv, one_time_use hnew hkeys .stored padDispatches (by decide) rfl⟩

end Channel

end OneTimeChannel

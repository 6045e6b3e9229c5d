/-
  What a key buffer hands out.

  The two stocks of a buffer are described as in `KeyStock.Tracks`.  For the outgoing one there is more
  to say: keys are taken from the front, so the ids used so far are 1, …, `n` (`KeyBuffer.Sends`), and the
  next key that is not empty gets the id `n + 1`.  For the incoming one the used ids are in any order
  (`KeyBuffer.Receives`), since it is the messages that name them.

  Both hold of every buffer there is (`Reached.exists_sends`, `Reached.exists_receives`).  What a key to
  receive with costs does not depend on them: `Spends` says it of any buffer whatever.
-/
import OneTimeChannel.Keys.Buffer
import OneTimeChannel.Proofs.Keys.Stock

namespace OneTimeChannel

open KeyStock (Tracks idsFrom quantaFor keyAt)

namespace KeyBuffer

variable {b b' : KeyBuffer} {stream : Bytes} {used : List UInt32} {n length : Nat} {id : UInt32}
  {key : Key}

/-! ## Sending -/

/-- The buffer was delivered `stream` to send with, and has used the first `n` quanta of it. -/
def Sends (b : KeyBuffer) (stream : Bytes) (n : Nat) : Prop :=
  b.outgoing.Tracks b.quantum stream (idsFrom 1 n)

/-- The ids of the quanta that were used. -/
theorem mem_idsFrom_one (hn : n < 2 ^ 32 - 1) : id ∈ idsFrom 1 n ↔ 0 < id.toNat ∧ id.toNat ≤ n := by
  rw [KeyStock.mem_idsFrom (by rw [UInt32.toNat_one]; omega), UInt32.toNat_one]
  omega

/-- What was used was delivered. -/
theorem Sends.le (h : b.Sends stream n) (hbound : stream.length / b.quantum < 2 ^ 32 - 1) :
    n ≤ stream.length / b.quantum := by
  rcases Nat.eq_zero_or_pos n with rfl | hpos
  · exact Nat.zero_le _
  · have := KeyStock.add_le_of_idsFrom_le hbound hpos fun id hid => (h.used_le id hid).2
    rw [UInt32.toNat_one] at this
    omega

theorem Sends.pushOutgoing (h : b.Sends stream n) (bytes : Bytes)
    (hbound : (stream ++ bytes).length / b.quantum < 2 ^ 32 - 1) :
    (b.pushOutgoing bytes).Sends (stream ++ bytes) n :=
  h.push bytes hbound

/-- As long as quanta are left, the one after those that were used is held. -/
theorem Sends.next_mem_held (h : b.Sends stream n) (hbound : stream.length / b.quantum < 2 ^ 32 - 1)
    (hleft : n < stream.length / b.quantum) :
    (UInt32.ofNat (n + 1)).toNat = n + 1 ∧ UInt32.ofNat (n + 1) ∈ b.outgoing.held := by
  have hnext : (UInt32.ofNat (n + 1)).toNat = n + 1 :=
    UInt32.toNat_ofNat_of_lt' (show n + 1 < 2 ^ 32 by omega)
  refine ⟨hnext, ?_⟩
  rw [h.mem_held_iff, mem_idsFrom_one (by omega), hnext]
  omega

/-- The first id that is held is the one after those that were used. -/
theorem Sends.toNat_of_minKey?_eq_some (h : b.Sends stream n)
    (hbound : stream.length / b.quantum < 2 ^ 32 - 1)
    (hfirst : b.outgoing.held.minKey? = some id) : id.toNat = n + 1 := by
  have hn := h.le hbound
  obtain ⟨hid, hleast⟩ := Std.TreeMap.minKey?_eq_some_iff_mem_and_forall.1 hfirst
  rw [h.mem_held_iff, mem_idsFrom_one (by omega)] at hid
  obtain ⟨hnext, hheld⟩ := h.next_mem_held hbound (by omega)
  have hle := UInt32.le_iff_toNat_le.1 (Std.isLE_compare.1 (hleast _ hheld))
  omega

/-- A key to send with is taken from the front, or is empty and costs nothing. -/
theorem take_of_fetchOutgoing_eq_ok (hfetch : KeySource.fetchOutgoing b length = (.ok (id, key), b')) :
    b.outgoing.take b.quantum id length = .ok (key, b'.outgoing)
      ∧ b' = { b with outgoing := b'.outgoing }
      ∧ if length = 0 then id = 0 else b.outgoing.held.minKey? = some id := by
  have hok := KeySource.eq_of_outcome_eq_ok hfetch
  rw [KeyBuffer.fetchOutgoing] at hok
  split at hok
  · next hzero =>
    cases hok
    exact ⟨by rw [hzero, KeyStock.take_zero _ b.quantum_pos], rfl, by rw [if_pos hzero]⟩
  · next hzero =>
    split at hok
    · cases hok
    next first hfirst =>
    split at hok
    · next key outgoing htake =>
      cases hok
      exact ⟨htake, rfl, by rw [if_neg hzero, hfirst]⟩
    · cases hok

/-- Keys to send with use up the quanta after those that were used, and have the id 0 only if they are
    empty. -/
theorem Sends.fetchOutgoing (h : b.Sends stream n) (hbound : stream.length / b.quantum < 2 ^ 32 - 1)
    (hfetch : KeySource.fetchOutgoing b length = (.ok (id, key), b')) :
    b'.Sends stream (n + quantaFor b.quantum length)
      ∧ idsFrom 1 (n + quantaFor b.quantum length)
        = idsFrom 1 n ++ idsFrom id (quantaFor b.quantum length)
      ∧ (id = 0 ↔ length = 0) := by
  obtain ⟨htake, heq, hid⟩ := take_of_fetchOutgoing_eq_ok hfetch
  have hquantum : b'.quantum = b.quantum := by rw [heq]
  have hnext : if length = 0 then id = 0 else id.toNat = n + 1 := by
    split at hid
    · next hzero => rwa [if_pos hzero]
    · next hzero => rw [if_neg hzero, h.toNat_of_minKey?_eq_some hbound hid]
  have hids : idsFrom 1 (n + quantaFor b.quantum length)
      = idsFrom 1 n ++ idsFrom id (quantaFor b.quantum length) := by
    rw [KeyStock.idsFrom_append]
    split at hnext
    · next hzero => rw [hzero, KeyStock.quantaFor_zero b.quantum_pos]; rfl
    · have hn := h.le hbound
      have hfirst : 1 + UInt32.ofNat n = id := by
        rw [← UInt32.toNat_inj, KeyStock.toNat_add_ofNat (by rw [UInt32.toNat_one]; omega), hnext,
          UInt32.toNat_one, Nat.add_comm]
      rw [hfirst]
  refine ⟨?_, hids, ?_⟩
  · rw [Sends, hids, hquantum]
    exact Tracks.take h htake
  · split at hnext
    · next hzero => exact ⟨fun _ => hzero, fun _ => hnext⟩
    · next hne =>
      refine ⟨fun hzero => ?_, fun hzero => absurd hzero hne⟩
      rw [hzero] at hnext
      cases hnext

/-- Keys to send with are pieces of the stream. -/
theorem Sends.key_of_fetchOutgoing (h : b.Sends stream n)
    (hbound : stream.length / b.quantum < 2 ^ 32 - 1) (hcount : pieceCount b.quantum length < 2 ^ 32)
    (hfetch : KeySource.fetchOutgoing b length = (.ok (id, key), b')) :
    key = keyAt b.quantum stream id length ∧ key.length = length :=
  Tracks.key_of_take h b.quantum_pos hbound hcount (take_of_fetchOutgoing_eq_ok hfetch).1

/-- Whatever comes of a request, the stock is used from the front. -/
theorem Sends.exists_sends_fetchOutgoing (h : b.Sends stream n)
    (hbound : stream.length / b.quantum < 2 ^ 32 - 1) (length : Nat) :
    ∃ n' ≥ n, (KeySource.fetchOutgoing b length).2.Sends stream n' := by
  rcases hfetch : KeySource.fetchOutgoing b length with ⟨e | ⟨id, key⟩, b'⟩
  · obtain rfl := KeySource.eq_of_outcome_eq_error hfetch
    exact ⟨n, Nat.le_refl n, h⟩
  · exact ⟨_, Nat.le_add_right .., (h.fetchOutgoing hbound hfetch).1⟩

/-- If a quantum is left, the first one is the one after those that were used. -/
theorem Sends.exists_minKey? (h : b.Sends stream n) (hbound : stream.length / b.quantum < 2 ^ 32 - 1)
    (hleft : n < stream.length / b.quantum) :
    ∃ first, b.outgoing.held.minKey? = some first ∧ first.toNat = n + 1 := by
  obtain ⟨-, hheld⟩ := h.next_mem_held hbound hleft
  obtain ⟨first, hfirst⟩ := Option.isSome_iff_exists.1 (Std.TreeMap.isSome_minKey?_of_mem hheld)
  exact ⟨first, hfirst, h.toNat_of_minKey?_eq_some hbound hfirst⟩

/-- A key is handed out if enough quanta are left, and takes as many as it needs. -/
theorem Sends.exists_fetchOutgoing (h : b.Sends stream n)
    (hbound : stream.length / b.quantum < 2 ^ 32 - 1)
    (hleft : n + pieceCount b.quantum length ≤ stream.length / b.quantum) :
    ∃ id key b', KeySource.fetchOutgoing b length = (.ok (id, key), b') ∧ b'.quantum = b.quantum
      ∧ b'.Sends stream (n + pieceCount b.quantum length) := by
  have hcount : quantaFor b.quantum length = pieceCount b.quantum length :=
    KeyStock.quantaFor_eq (by omega)
  obtain ⟨⟨⟨id, key⟩, b'⟩, hok⟩ : ∃ r, b.fetchOutgoing length = .ok r := by
    rw [KeyBuffer.fetchOutgoing]
    rcases Nat.eq_zero_or_pos length with rfl | hpos
    · exact ⟨_, rfl⟩
    have hpieces := pieceCount_pos b.quantum_pos hpos
    obtain ⟨first, hfirst, hid⟩ := h.exists_minKey? hbound (by omega)
    have hrun : ∀ id ∈ idsFrom first (quantaFor b.quantum length), id ∈ b.outgoing.held := by
      intro id hmem
      rw [hcount, KeyStock.mem_idsFrom (by omega)] at hmem
      rw [h.mem_held_iff, mem_idsFrom_one (by omega)]
      omega
    rw [if_neg hpos.ne', hfirst]
    dsimp only
    rw [KeyStock.take_eq_ok_iff.2 ⟨hrun, rfl⟩]
    exact ⟨_, rfl⟩
  have hfetch : KeySource.fetchOutgoing b length = (.ok (id, key), b') :=
    congrArg (KeySource.outcome b) hok
  have hquantum : b'.quantum = b.quantum := by rw [(take_of_fetchOutgoing_eq_ok hfetch).2.1]
  have hsends := (h.fetchOutgoing hbound hfetch).1
  rw [hcount] at hsends
  exact ⟨id, key, b', hfetch, hquantum, hsends⟩

/-! ## Receiving -/

/-- The buffer was delivered `stream` to receive with, and has used the quanta with the ids `used`. -/
def Receives (b : KeyBuffer) (stream : Bytes) (used : List UInt32) : Prop :=
  b.incoming.Tracks b.quantum stream used

theorem Receives.pushIncoming (h : b.Receives stream used) (bytes : Bytes)
    (hbound : (stream ++ bytes).length / b.quantum < 2 ^ 32 - 1) :
    (b.pushIncoming bytes).Receives (stream ++ bytes) used :=
  h.push bytes hbound

/-- A key to receive with is taken from where its id says; an empty one is there in any case. -/
theorem fetchIncoming_eq_ok_iff :
    KeySource.fetchIncoming b id length = (.ok key, b') ↔
      b.incoming.take b.quantum id length = .ok (key, b'.incoming)
        ∧ b' = { b with incoming := b'.incoming } := by
  have hfetch : KeySource.fetchIncoming b id length
      = KeySource.outcome b (b.fetchIncoming id length) := rfl
  rw [hfetch, KeyBuffer.fetchIncoming]
  constructor
  · intro h
    have hok := KeySource.eq_of_outcome_eq_ok h
    split at hok
    · next hzero =>
      cases hok
      exact ⟨by rw [hzero, KeyStock.take_zero _ b.quantum_pos], rfl⟩
    split at hok
    · next key incoming htake =>
      cases hok
      exact ⟨htake, rfl⟩
    · cases hok
  · rintro ⟨htake, heq⟩
    by_cases hzero : length = 0
    · rw [hzero, KeyStock.take_zero _ b.quantum_pos] at htake
      obtain ⟨rfl, hincoming⟩ := Prod.mk.inj (Except.ok.inj htake)
      rw [if_pos hzero, KeySource.outcome_ok, heq, ← hincoming]
    · rw [if_neg hzero, htake, heq, KeySource.outcome_ok]

/-- A key whose quanta are held is handed out. -/
theorem exists_fetchIncoming
    (hheld : ∀ i ∈ idsFrom id (quantaFor b.quantum length), i ∈ b.incoming.held) :
    ∃ key b', KeySource.fetchIncoming b id length = (.ok key, b') := by
  obtain ⟨⟨key, incoming⟩, htake⟩ : ∃ r, b.incoming.take b.quantum id length = .ok r :=
    ⟨_, KeyStock.take_eq_ok_iff.2 ⟨hheld, rfl⟩⟩
  exact ⟨key, { b with incoming }, fetchIncoming_eq_ok_iff.2 ⟨htake, rfl⟩⟩

/-- Keys to receive with use up the quanta that were asked for. -/
theorem Receives.fetchIncoming (h : b.Receives stream used)
    (hfetch : KeySource.fetchIncoming b id length = (.ok key, b')) :
    b'.Receives stream (used ++ idsFrom id (quantaFor b.quantum length)) := by
  obtain ⟨htake, heq⟩ := fetchIncoming_eq_ok_iff.1 hfetch
  have hquantum : b'.quantum = b.quantum := by rw [heq]
  rw [Receives, hquantum]
  exact Tracks.take h htake

/-- Whatever comes of a request, what was used stays used. -/
theorem Receives.exists_receives_fetchIncoming (h : b.Receives stream used) (id : UInt32)
    (length : Nat) : ∃ more, (KeySource.fetchIncoming b id length).2.Receives stream (used ++ more) := by
  rcases hfetch : KeySource.fetchIncoming b id length with ⟨e | key, b'⟩
  · obtain rfl := KeySource.eq_of_outcome_eq_error hfetch
    exact ⟨[], by rwa [List.append_nil]⟩
  · exact ⟨_, h.fetchIncoming hfetch⟩

/-- A key that is handed out is the piece of the stream that its id stands for. -/
theorem Receives.exists_fetchIncoming (h : b.Receives stream used)
    (hbound : stream.length / b.quantum < 2 ^ 32 - 1) (hpieces : pieceCount b.quantum length < 2 ^ 32)
    (hheld : ∀ i ∈ idsFrom id (quantaFor b.quantum length), i ∈ b.incoming.held) :
    ∃ b', KeySource.fetchIncoming b id length = (.ok (keyAt b.quantum stream id length), b')
      ∧ b'.quantum = b.quantum
      ∧ b'.Receives stream (used ++ idsFrom id (quantaFor b.quantum length)) := by
  obtain ⟨key, b', hfetch⟩ := KeyBuffer.exists_fetchIncoming hheld
  obtain ⟨htake, heq⟩ := fetchIncoming_eq_ok_iff.1 hfetch
  obtain ⟨rfl, -⟩ := Tracks.key_of_take h b.quantum_pos hbound hpieces htake
  exact ⟨b', hfetch, by rw [heq], h.fetchIncoming hfetch⟩

/-- Two keys whose quanta are held and apart are handed out one after the other. -/
theorem Receives.exists_fetchIncoming_both {id' : UInt32} {length' : Nat} (h : b.Receives stream used)
    (hbound : stream.length / b.quantum < 2 ^ 32 - 1) (hpieces : pieceCount b.quantum length < 2 ^ 32)
    (hpieces' : pieceCount b.quantum length' < 2 ^ 32)
    (hheld : ∀ i ∈ idsFrom id (quantaFor b.quantum length), i ∈ b.incoming.held)
    (hheld' : ∀ i ∈ idsFrom id' (quantaFor b.quantum length'), i ∈ b.incoming.held)
    (hapart : List.Disjoint (idsFrom id (quantaFor b.quantum length))
      (idsFrom id' (quantaFor b.quantum length'))) :
    ∃ between b', KeySource.fetchIncoming b id length
        = (.ok (keyAt b.quantum stream id length), between)
      ∧ KeySource.fetchIncoming between id' length'
        = (.ok (keyAt b.quantum stream id' length'), b')
      ∧ b'.Receives stream (used ++ idsFrom id (quantaFor b.quantum length)
        ++ idsFrom id' (quantaFor b.quantum length')) := by
  obtain ⟨between, hfetch, hquantum, hbetween⟩ := h.exists_fetchIncoming hbound hpieces hheld
  have hstill : ∀ i ∈ idsFrom id' (quantaFor between.quantum length'),
      i ∈ between.incoming.held := by
    intro i hi
    rw [hquantum] at hi
    obtain ⟨hpos, hle, hunused⟩ := h.mem_held_iff.1 (hheld' i hi)
    rw [hbetween.mem_held_iff, hquantum, List.mem_append, not_or]
    exact ⟨hpos, hle, hunused, fun hi' => hapart hi' hi⟩
  obtain ⟨b', hfetch', -, hb'⟩ :=
    hbetween.exists_fetchIncoming (by rwa [hquantum]) (by rwa [hquantum]) hstill
  rw [hquantum] at hfetch' hb'
  exact ⟨between, b', hfetch, hfetch', hb'⟩

/-- The quanta that requests name, in the order in which they are taken. -/
def requestedIds (q : Nat) (requests : List (UInt32 × Nat)) : List UInt32 :=
  requests.flatMap fun request => idsFrom request.1 (quantaFor q request.2)

theorem isSome_reserveIncoming? {requests : List (UInt32 × Nat)} (taken : Std.TreeSet UInt32) :
    (b.reserveIncoming? requests taken).isSome = true ↔
      (requestedIds b.quantum requests).Nodup
        ∧ ∀ id ∈ requestedIds b.quantum requests, id ∈ b.incoming.held ∧ id ∉ taken := by
  induction requests generalizing taken with
  | nil => simp [reserveIncoming?, requestedIds]
  | cons request rest ih =>
    obtain ⟨first, length⟩ := request
    have hcons : requestedIds b.quantum ((first, length) :: rest)
        = idsFrom first (quantaFor b.quantum length) ++ requestedIds b.quantum rest := rfl
    rw [hcons, reserveIncoming?]
    by_cases hzero : length = 0
    · rw [if_pos hzero, ih, hzero, KeyStock.quantaFor_zero b.quantum_pos]
      rfl
    rw [if_neg hzero, List.nodup_append', List.forall_mem_append]
    -- what the first request reserves is apart from what the others do
    have hcount := Nat.le_of_lt (KeyStock.quantaFor_lt b.quantum length)
    have hrun := b.incoming.isSome_reserve? first hcount taken
    cases hreserve : b.incoming.reserve? first (quantaFor b.quantum length) taken with
    | none =>
      rw [hreserve] at hrun
      simp only [Option.isSome_none, Bool.false_eq_true, false_iff] at hrun ⊢
      exact fun h => hrun h.2.1
    | some taken' =>
      rw [hreserve] at hrun
      have hids := hrun.1 rfl
      have hmem := KeyStock.mem_of_reserve?_eq_some hreserve
      simp only [ih, hmem, not_or]
      constructor
      · rintro ⟨hnodup, hrest⟩
        refine ⟨⟨KeyStock.nodup_idsFrom first hcount, hnodup, ?_⟩, hids, ?_⟩
        · intro id hid hid'
          exact (hrest id hid').2.2 hid
        · exact fun id hid => ⟨(hrest id hid).1, (hrest id hid).2.1⟩
      · rintro ⟨⟨-, hnodup, hdisjoint⟩, -, hrest⟩
        refine ⟨hnodup, fun id hid => ⟨(hrest id hid).1, (hrest id hid).2, ?_⟩⟩
        exact fun hid' => hdisjoint hid' hid

/-- All requests can be met exactly if their quanta are held and none is named twice. -/
theorem incomingAvailable_iff {requests : List (UInt32 × Nat)} :
    b.incomingAvailable requests = true ↔
      (requestedIds b.quantum requests).Nodup
        ∧ ∀ id ∈ requestedIds b.quantum requests, id ∈ b.incoming.held := by
  rw [incomingAvailable, isSome_reserveIncoming?]
  simp

/-! ## What is left -/

/-- The buffer `b'` is what is left of `b` without the incoming quanta that have the ids `spent`.  They
    were held, none is listed twice, and nothing else is different. -/
structure Spends (b : KeyBuffer) (spent : List UInt32) (b' : KeyBuffer) : Prop where
  quantum_eq : b'.quantum = b.quantum
  outgoing_eq : b'.outgoing = b.outgoing
  pending_eq : b'.incoming.pending = b.incoming.pending
  nextId_eq : b'.incoming.nextId = b.incoming.nextId
  mem_held : ∀ id ∈ spent, id ∈ b.incoming.held
  nodup : spent.Nodup
  getElem?_held : ∀ id, b'.incoming.held[id]? = if id ∈ spent then none else b.incoming.held[id]?

theorem Spends.nil (b : KeyBuffer) : b.Spends [] b where
  quantum_eq := rfl
  outgoing_eq := rfl
  pending_eq := rfl
  nextId_eq := rfl
  mem_held := by simp
  nodup := List.nodup_nil
  getElem?_held := by simp

theorem Spends.mem_held_iff {spent : List UInt32} (h : b.Spends spent b') :
    id ∈ b'.incoming.held ↔ id ∈ b.incoming.held ∧ id ∉ spent := by
  rw [Std.TreeMap.mem_iff_isSome_getElem?, Std.TreeMap.mem_iff_isSome_getElem?, h.getElem?_held]
  by_cases hspent : id ∈ spent
  · simp [hspent]
  · simp [hspent]

theorem Spends.append {b'' : KeyBuffer} {spent later : List UInt32} (h : b.Spends spent b')
    (h' : b'.Spends later b'') : b.Spends (spent ++ later) b'' where
  quantum_eq := h'.quantum_eq.trans h.quantum_eq
  outgoing_eq := h'.outgoing_eq.trans h.outgoing_eq
  pending_eq := h'.pending_eq.trans h.pending_eq
  nextId_eq := h'.nextId_eq.trans h.nextId_eq
  mem_held := by
    intro id hid
    rcases List.mem_append.1 hid with hspent | hlater
    · exact h.mem_held id hspent
    · exact (h.mem_held_iff.1 (h'.mem_held id hlater)).1
  nodup := by
    refine h.nodup.append h'.nodup ?_
    intro id hspent hlater
    exact (h.mem_held_iff.1 (h'.mem_held id hlater)).2 hspent
  getElem?_held := by
    intro id
    rw [h'.getElem?_held, h.getElem?_held]
    by_cases hlater : id ∈ later
    · simp [hlater]
    · simp [hlater]

/-- A key to receive with costs the quanta that were asked for. -/
theorem spends_of_fetchIncoming (hfetch : KeySource.fetchIncoming b id length = (.ok key, b')) :
    b.Spends (idsFrom id (quantaFor b.quantum length)) b' := by
  obtain ⟨htake, heq⟩ := fetchIncoming_eq_ok_iff.1 hfetch
  obtain ⟨hheld, hr⟩ := KeyStock.take_eq_ok_iff.1 htake
  obtain ⟨-, hincoming⟩ := Prod.mk.inj hr
  refine ⟨by rw [heq], by rw [heq], by rw [hincoming], by rw [hincoming], hheld, ?_, ?_⟩
  · exact KeyStock.nodup_idsFrom id (Nat.le_of_lt (KeyStock.quantaFor_lt b.quantum length))
  · intro i
    rw [hincoming]
    exact KeyStock.getElem?_foldl_erase b.incoming.held _ i

/-- Two keys that can be had are handed out one after the other. -/
theorem exists_fetchIncoming_both {id' : UInt32} {length' : Nat}
    (havailable : b.incomingAvailable [(id, length), (id', length')] = true) :
    ∃ key between key' b', KeySource.fetchIncoming b id length = (.ok key, between)
      ∧ KeySource.fetchIncoming between id' length' = (.ok key', b') := by
  obtain ⟨hnodup, hheld⟩ := incomingAvailable_iff.1 havailable
  have hids : requestedIds b.quantum [(id, length), (id', length')]
      = idsFrom id (quantaFor b.quantum length) ++ idsFrom id' (quantaFor b.quantum length') := by
    simp [requestedIds]
  rw [hids] at hnodup hheld
  obtain ⟨key, between, hfetch⟩ :=
    exists_fetchIncoming fun i hi => hheld i (List.mem_append_left _ hi)
  have hspends := spends_of_fetchIncoming hfetch
  -- what the first key has cost is nothing that the second one needs
  have hstill : ∀ i ∈ idsFrom id' (quantaFor between.quantum length'), i ∈ between.incoming.held := by
    intro i hi
    rw [hspends.quantum_eq] at hi
    rw [hspends.mem_held_iff]
    exact ⟨hheld i (List.mem_append_right _ hi), fun hi' => List.disjoint_of_nodup_append hnodup hi' hi⟩
  obtain ⟨key', b', hfetch'⟩ := exists_fetchIncoming hstill
  exact ⟨key, between, key', b', hfetch, hfetch'⟩

/-! ## Every buffer -/

/-- Keys to send with leave the other direction alone. -/
theorem fetchOutgoing_frame (b : KeyBuffer) (length : Nat) :
    (KeySource.fetchOutgoing b length).2.quantum = b.quantum
      ∧ (KeySource.fetchOutgoing b length).2.incoming = b.incoming := by
  rcases hfetch : KeySource.fetchOutgoing b length with ⟨_ | ⟨id, key⟩, b'⟩
  · obtain rfl := KeySource.eq_of_outcome_eq_error hfetch
    exact ⟨rfl, rfl⟩
  · rw [(take_of_fetchOutgoing_eq_ok hfetch).2.1]
    exact ⟨rfl, rfl⟩

/-- Keys to receive with leave the other direction alone. -/
theorem fetchIncoming_frame (b : KeyBuffer) (id : UInt32) (length : Nat) :
    (KeySource.fetchIncoming b id length).2.quantum = b.quantum
      ∧ (KeySource.fetchIncoming b id length).2.outgoing = b.outgoing := by
  rcases hfetch : KeySource.fetchIncoming b id length with ⟨_ | key, b'⟩
  · obtain rfl := KeySource.eq_of_outcome_eq_error hfetch
    exact ⟨rfl, rfl⟩
  · rw [(fetchIncoming_eq_ok_iff.1 hfetch).2]
    exact ⟨rfl, rfl⟩

/-- A new buffer with quanta of four bytes. -/
def byFour : KeyBuffer where
  quantum := 4
  outgoing := .empty
  incoming := .empty
  quantum_pos := by decide

/-- A new buffer with quanta of one byte. -/
def byOne : KeyBuffer where
  quantum := 1
  outgoing := .empty
  incoming := .empty
  quantum_pos := by decide

theorem ofQuantum_eq_ok {q : Nat} (h : ofQuantum q = .ok b) :
    b.quantum = q ∧ b.outgoing = .empty ∧ b.incoming = .empty := by
  rw [ofQuantum] at h
  split at h
  · cases h
    exact ⟨rfl, rfl, rfl⟩
  · cases h

/-- The buffers with quanta of `q` bytes that come about by using them, with the streams that were
    delivered to them. -/
inductive Reached (q : Nat) : (sent received : Bytes) → KeyBuffer → Prop where
  | new {keys : KeyBuffer} (h : ofQuantum q = .ok keys) : Reached q [] [] keys
  | pushOutgoing {sent received : Bytes} {keys : KeyBuffer} (h : Reached q sent received keys)
    (bytes : Bytes) : Reached q (sent ++ bytes) received (keys.pushOutgoing bytes)
  | pushIncoming {sent received : Bytes} {keys : KeyBuffer} (h : Reached q sent received keys)
    (bytes : Bytes) : Reached q sent (received ++ bytes) (keys.pushIncoming bytes)
  | fetchOutgoing {sent received : Bytes} {keys : KeyBuffer} (h : Reached q sent received keys)
    (length : Nat) : Reached q sent received (KeySource.fetchOutgoing keys length).2
  | fetchIncoming {sent received : Bytes} {keys : KeyBuffer} (h : Reached q sent received keys)
    (id : UInt32) (length : Nat) : Reached q sent received (KeySource.fetchIncoming keys id length).2

namespace Reached

variable {q : Nat} {sent received : Bytes}

theorem quantum_eq (h : Reached q sent received b) : b.quantum = q := by
  induction h with
  | new h => exact (ofQuantum_eq_ok h).1
  | pushOutgoing _ _ ih => exact ih
  | pushIncoming _ _ ih => exact ih
  | fetchOutgoing _ length ih => rw [(fetchOutgoing_frame _ length).1, ih]
  | fetchIncoming _ id length ih => rw [(fetchIncoming_frame _ id length).1, ih]

/-- What a buffer sends with is used from the front. -/
theorem exists_sends (h : Reached q sent received b) (hbound : sent.length / q < 2 ^ 32 - 1) :
    ∃ n, b.Sends sent n := by
  induction h with
  | new h =>
    refine ⟨0, ?_⟩
    rw [Sends, (ofQuantum_eq_ok h).2.1]
    exact KeyStock.tracks_empty _
  | @pushOutgoing sent _ keys h bytes ih =>
    have hle : sent.length / q ≤ (sent ++ bytes).length / q := Nat.div_le_div_right (by simp)
    obtain ⟨n, hn⟩ := ih (by omega)
    exact ⟨n, hn.pushOutgoing bytes (by rw [h.quantum_eq]; exact hbound)⟩
  | pushIncoming _ _ ih => exact ih hbound
  | fetchOutgoing h length ih =>
    obtain ⟨n, hn⟩ := ih hbound
    obtain ⟨n', -, hn'⟩ := hn.exists_sends_fetchOutgoing (by rwa [h.quantum_eq]) length
    exact ⟨n', hn'⟩
  | fetchIncoming _ id length ih =>
    obtain ⟨n, hn⟩ := ih hbound
    obtain ⟨hquantum, houtgoing⟩ := fetchIncoming_frame _ id length
    exact ⟨n, by rwa [Sends, hquantum, houtgoing]⟩

/-- What a buffer receives with was used in some order. -/
theorem exists_receives (h : Reached q sent received b)
    (hbound : received.length / q < 2 ^ 32 - 1) : ∃ used, b.Receives received used := by
  induction h with
  | new h =>
    refine ⟨[], ?_⟩
    rw [Receives, (ofQuantum_eq_ok h).2.2]
    exact KeyStock.tracks_empty _
  | pushOutgoing _ _ ih => exact ih hbound
  | @pushIncoming _ received keys h bytes ih =>
    have hle : received.length / q ≤ (received ++ bytes).length / q :=
      Nat.div_le_div_right (by simp)
    obtain ⟨used, hused⟩ := ih (by omega)
    exact ⟨used, hused.pushIncoming bytes (by rw [h.quantum_eq]; exact hbound)⟩
  | fetchOutgoing _ length ih =>
    obtain ⟨used, hused⟩ := ih hbound
    obtain ⟨hquantum, hincoming⟩ := fetchOutgoing_frame _ length
    exact ⟨used, by rwa [Receives, hquantum, hincoming]⟩
  | fetchIncoming _ id length ih =>
    obtain ⟨used, hused⟩ := ih hbound
    obtain ⟨more, hmore⟩ := hused.exists_receives_fetchIncoming id length
    exact ⟨_, hmore⟩

end Reached

end KeyBuffer

end OneTimeChannel

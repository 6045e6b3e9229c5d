/-
  What a key that is handed out amounts to.

  A key of a given length should have that length, and should cost as many quanta as it is made of.  Two
  things decide whether it does.  One is that every quantum that is held is whole (`KeyStock.IsWhole`):
  deliveries cut the stream into whole quanta, and nothing else puts a quantum into a stock.  So the bytes
  of a key are as many as its quanta have, or as were asked for if these are fewer.

  The other is the number of quanta, which is counted in 32 bits.  A key that takes 2 ^ 32 quanta or more
  is cut from fewer of them, and is handed out all the same, too short and at too low a price.  That is the
  only case in which it happens (`fetch_delivers`), and it does happen (`not_inFull_fourGibibytes`).

  It is also the only case in which a key that is handed out may find no room in memory.  The quanta of a
  key lie in memory, all of them if they are counted right, and the key needs no more room than they do
  (`fetchOutgoingInMemory_of_pieceCount_lt`, `fetchIncomingInMemory_of_pieceCount_lt`).

  There is no bound on what was delivered before: the ids may have come round any number of times.
-/
import OneTimeChannel.Proofs.Keys.Addresses
import Mathlib.Data.List.Perm.Subperm

namespace OneTimeChannel

open KeyStock (idsFrom quantaFor maxRoom)

/-! ## Whole quanta -/

namespace KeyStock

variable {q : Nat} {stream : Bytes} {s s' : KeyStock} {first : UInt32} {length : Nat} {key : Key}

/-- Every quantum that is held has the size of a quantum. -/
def IsWhole (q : Nat) (s : KeyStock) : Prop :=
  ∀ (id : UInt32) (key : Key), s.held[id]? = some key → key.length = q

theorem isWhole_empty (q : Nat) : IsWhole q empty := by
  intro id key hkey
  simp [empty] at hkey

theorem IsWhole.deliver {quantum : Bytes} (h : IsWhole q s) (hquantum : quantum.length = q) :
    IsWhole q (s.deliver quantum) := by
  intro id key hkey
  simp only [KeyStock.deliver, Std.TreeMap.getElem?_insert] at hkey
  split at hkey
  · obtain rfl := Option.some.inj hkey
    exact hquantum
  · exact h id key hkey

theorem IsWhole.deliverAll {count : Nat} (h : IsWhole q s) (hroom : count * q ≤ stream.length) :
    IsWhole q (KeyStock.deliverAll q count s stream) := by
  induction count generalizing s stream with
  | zero => exact h
  | succ count ih =>
    rw [Nat.succ_mul] at hroom
    have hquantum : (stream.take q).length = q := List.length_take_of_le (by omega)
    exact ih (h.deliver hquantum) (by rw [List.length_drop]; omega)

theorem IsWhole.push (h : IsWhole q s) (bytes : Bytes) : IsWhole q (s.push q bytes) :=
  h.deliverAll (Nat.div_mul_le_self _ _)

/-- Taking a key leaves whole quanta behind. -/
theorem IsWhole.take (h : IsWhole q s) (ht : s.take q first length = .ok (key, s')) :
    IsWhole q s' := by
  obtain ⟨-, heq⟩ := take_eq_ok_iff.1 ht
  obtain ⟨-, rfl⟩ := Prod.mk.inj heq
  intro id key hkey
  simp only [getElem?_foldl_erase] at hkey
  split at hkey
  · cases hkey
  · exact h id key hkey

theorem IsWhole.length_flatMap (h : IsWhole q s) {ids : List UInt32} (hids : ∀ id ∈ ids, id ∈ s.held) :
    (ids.flatMap fun id => (s.held.getD id .empty).bytes).length = ids.length * q := by
  induction ids with
  | nil => exact (Nat.zero_mul q).symm
  | cons id rest ih =>
    rw [List.forall_mem_cons] at hids
    have hquantum : (s.held.getD id .empty).bytes.length = q := by
      obtain ⟨quantum, hsome⟩ := Option.isSome_iff_exists.1
        (Std.TreeMap.mem_iff_isSome_getElem?.1 hids.1)
      rw [Std.TreeMap.getD_eq_getD_getElem?, hsome, Option.getD_some]
      exact h id quantum hsome
    rw [List.flatMap_cons, List.length_append, ih hids.2, hquantum, List.length_cons, Nat.succ_mul,
      Nat.add_comm]

/-- The bytes of a key are those of its quanta, or as many of them as were asked for. -/
theorem IsWhole.length_of_take (h : IsWhole q s) (ht : s.take q first length = .ok (key, s')) :
    key.length = min length (quantaFor q length * q) := by
  obtain ⟨hheld, heq⟩ := take_eq_ok_iff.1 ht
  obtain ⟨rfl, -⟩ := Prod.mk.inj heq
  rw [Key.length, List.length_take, h.length_flatMap hheld, length_idsFrom]

/-- A key needs no more room than the quanta that are held, if all of its own are and are counted
    right. -/
theorem roomFor_le_available (hcount : pieceCount q length < 2 ^ 32)
    (hheld : ∀ i ∈ idsFrom first (quantaFor q length), i ∈ s.held) :
    roomFor q length ≤ s.available q := by
  rw [quantaFor_eq hcount] at hheld
  have hkeys : idsFrom first (pieceCount q length) ⊆ s.held.keys :=
    fun i hi => Std.TreeMap.mem_keys.2 (hheld i hi)
  have hfew := (List.subperm_of_subset (nodup_idsFrom first hcount.le) hkeys).length_le
  rw [length_idsFrom, Std.TreeMap.length_keys] at hfew
  exact (Nat.mod_le _ _).trans (Nat.mul_le_mul_right q hfew)

end KeyStock

namespace KeyBuffer

variable {q length : Nat} {sent received : Bytes} {b b' : KeyBuffer} {d : Direction} {id : UInt32}
  {key : Key}

/-- Whatever is done with a buffer, it leaves whole quanta behind. -/
theorem isWhole_use (h : (b.stock d).IsWhole b.quantum) (u : KeyUse) :
    ((b.use u).stock d).IsWhole b.quantum := by
  rcases stock_use_cases b u d with ⟨-, hsame⟩ | hpush | ⟨-, first, length, key, -, htake⟩
  · rwa [hsame]
  · rw [hpush]
    exact h.push _
  · exact h.take htake

theorem Reached.isWhole (h : Reached q sent received b) (d : Direction) : (b.stock d).IsWhole q := by
  induction h with
  | new hnew => exact stock_of_ofQuantum hnew d ▸ KeyStock.isWhole_empty q
  | pushOutgoing hb bytes ih =>
    obtain rfl := hb.quantum_eq
    exact isWhole_use ih (.push .outgoing bytes)
  | pushIncoming hb bytes ih =>
    obtain rfl := hb.quantum_eq
    exact isWhole_use ih (.push .incoming bytes)
  | fetchOutgoing hb length ih =>
    obtain rfl := hb.quantum_eq
    exact isWhole_use ih (.fetchOutgoing length)
  | fetchIncoming hb id length ih =>
    obtain rfl := hb.quantum_eq
    exact isWhole_use ih (.fetchIncoming id length)

/-! ## Room -/

theorem fetchOutgoingInMemory_of_pieceCount_lt (hcount : pieceCount b.quantum length < 2 ^ 32)
    (hmemory : b.outgoingLength ≤ maxRoom) :
    b.fetchOutgoingInMemory length = .ok (b.fetchOutgoing length) := by
  rw [fetchOutgoingInMemory]
  cases hfetch : b.fetchOutgoing length with
  | error e => rfl
  | ok r =>
    obtain ⟨⟨first, key⟩, b'⟩ := r
    have hout : KeySource.fetchOutgoing b length = (.ok (first, key), b') := by
      show KeySource.outcome b (b.fetchOutgoing length) = _
      rw [hfetch, KeySource.outcome_ok]
    obtain ⟨htake, -⟩ := take_of_fetchOutgoing_eq_ok hout
    have hheld := (KeyStock.take_eq_ok_iff.1 htake).1
    exact KeyStock.inMemory_of_le ((KeyStock.roomFor_le_available hcount hheld).trans hmemory) _

theorem fetchIncomingInMemory_of_pieceCount_lt (id : UInt32)
    (hcount : pieceCount b.quantum length < 2 ^ 32) (hmemory : b.incomingLength ≤ maxRoom) :
    b.fetchIncomingInMemory id length = .ok (b.fetchIncoming id length) := by
  rw [fetchIncomingInMemory]
  cases hfetch : b.fetchIncoming id length with
  | error e => rfl
  | ok r =>
    obtain ⟨key, b'⟩ := r
    have hin : KeySource.fetchIncoming b id length = (.ok key, b') := by
      show KeySource.outcome b (b.fetchIncoming id length) = _
      rw [hfetch, KeySource.outcome_ok]
    have hheld := (KeyStock.take_eq_ok_iff.1 (fetchIncoming_eq_ok_iff.1 hin).1).1
    exact KeyStock.inMemory_of_le ((KeyStock.roomFor_le_available hcount hheld).trans hmemory) _

/-! ## Fetching -/

/-- What comes of asking for a key in a direction.  For a key to send with the id is not looked at. -/
def fetch (b : KeyBuffer) : Direction → UInt32 → Nat → Except KeyError Key × KeyBuffer
  | .outgoing, _, length =>
    ((KeySource.fetchOutgoing b length).1.map (·.2), (KeySource.fetchOutgoing b length).2)
  | .incoming, id, length => KeySource.fetchIncoming b id length

/-- A key that is refused costs nothing. -/
theorem eq_of_fetch_eq_error {e : KeyError} (hfetch : b.fetch d id length = (.error e, b')) :
    b' = b := by
  cases d with
  | outgoing =>
    rcases hout : KeySource.fetchOutgoing b length with ⟨e' | r, b₁⟩
    · rw [fetch, hout] at hfetch
      obtain rfl : b₁ = b' := (Prod.mk.inj hfetch).2
      exact KeySource.eq_of_outcome_eq_error hout
    · rw [fetch, hout] at hfetch
      cases (Prod.mk.inj hfetch).1
  | incoming => exact KeySource.eq_of_outcome_eq_error hfetch

/-- A key that is handed out is taken from the stock of its direction, and the other one stays. -/
theorem take_of_fetch_eq_ok (hfetch : b.fetch d id length = (.ok key, b')) :
    (∃ first, (b.stock d).take b.quantum first length = .ok (key, b'.stock d))
      ∧ ∀ d', d' ≠ d → b'.stock d' = b.stock d' := by
  cases d with
  | outgoing =>
    rcases hout : KeySource.fetchOutgoing b length with ⟨e | ⟨first, key'⟩, b₁⟩
    · rw [fetch, hout] at hfetch
      cases (Prod.mk.inj hfetch).1
    · rw [fetch, hout] at hfetch
      obtain ⟨hkey, hb⟩ := Prod.mk.inj hfetch
      obtain rfl : key' = key := Except.ok.inj hkey
      obtain rfl : b₁ = b' := hb
      obtain ⟨htake, heq, -⟩ := take_of_fetchOutgoing_eq_ok hout
      refine ⟨⟨first, htake⟩, fun d' hd => ?_⟩
      rw [heq]
      cases d' with
      | outgoing => exact absurd rfl hd
      | incoming => rfl
  | incoming =>
    obtain ⟨htake, heq⟩ := fetchIncoming_eq_ok_iff.1 hfetch
    refine ⟨⟨id, htake⟩, fun d' hd => ?_⟩
    rw [heq]
    cases d' with
    | outgoing => rfl
    | incoming => exact absurd rfl hd

/-- The key has the length asked for, and the stock has lost exactly as many quanta as the key is made
    of. -/
def InFull (q length : Nat) (key : Key) (s s' : KeyStock) : Prop :=
  key.length = length ∧ (s.idsBeyond s').length = pieceCount q length ∧ s'.idsBeyond s = []

/-- A number of quanta that does not fit 32 bits is counted too low. -/
theorem quantaFor_lt_pieceCount (h : 2 ^ 32 ≤ pieceCount q length) :
    quantaFor q length < pieceCount q length := Nat.lt_of_lt_of_le (KeyStock.quantaFor_lt q length) h

/-- What a key amounts to.  In a buffer that was filled and used in any way, a key that is refused costs
    nothing.  One that is handed out has the bytes of the quanta that it costs, or as many as were asked
    for; these quanta are gone, nothing has come, and the other direction is as it was.  The quanta are as
    many as the key is made of, and so the key has its length, exactly as long as their number fits 32
    bits. -/
theorem fetch_delivers (h : Reached q sent received b) (d : Direction) (id : UInt32) (length : Nat) :
    (∀ e b', b.fetch d id length = (.error e, b') → b' = b)
      ∧ ∀ key b', b.fetch d id length = (.ok key, b') →
        key.length = min length (quantaFor q length * q)
          ∧ ((b.stock d).idsBeyond (b'.stock d)).length = quantaFor q length
          ∧ (b'.stock d).idsBeyond (b.stock d) = []
          ∧ (∀ d', d' ≠ d → b'.stock d' = b.stock d')
          ∧ (InFull q length key (b.stock d) (b'.stock d) ↔ pieceCount q length < 2 ^ 32) := by
  refine ⟨fun e b' => eq_of_fetch_eq_error, fun key b' hfetch => ?_⟩
  obtain ⟨⟨first, htake⟩, hother⟩ := take_of_fetch_eq_ok hfetch
  have hq : 0 < q := h.quantum_eq ▸ b.quantum_pos
  rw [h.quantum_eq] at htake
  have hlength := (h.isWhole d).length_of_take htake
  obtain ⟨hperm, hnone⟩ := KeyStock.idsBeyond_take_perm htake
  have hlost : ((b.stock d).idsBeyond (b'.stock d)).length = quantaFor q length := by
    rw [hperm.length_eq, KeyStock.length_idsFrom]
  refine ⟨hlength, hlost, hnone, hother, ?_⟩
  constructor
  · rintro ⟨-, hpieces, -⟩
    by_contra hmany
    have hfew := quantaFor_lt_pieceCount (Nat.not_lt.1 hmany)
    omega
  · intro hfits
    have hcount := KeyStock.quantaFor_eq hfits
    have henough := le_pieceCount_mul hq length
    refine ⟨?_, hlost.trans hcount, hnone⟩
    rw [hlength, hcount, Nat.min_eq_left henough]

/-- Seven bytes to send with are one quantum; three bytes cost all of it.  Of so many bytes that their
    quanta are one more than 32 bits can count, only the four of one quantum come. -/
theorem fetch_delivers_sevenBytes :
    (∃ key b', (byFour.pushOutgoing [1, 2, 3, 4, 5, 6, 7]).fetch .outgoing 0 3 = (.ok key, b')
        ∧ InFull 4 3 key (byFour.pushOutgoing [1, 2, 3, 4, 5, 6, 7]).outgoing b'.outgoing)
      ∧ ∃ key b', (byFour.pushOutgoing [1, 2, 3, 4, 5, 6, 7]).fetch .outgoing 0 (2 ^ 34 + 1)
          = (.ok key, b') ∧ key.length = 4 := by
  have hreached : Reached 4 ([] ++ [1, 2, 3, 4, 5, 6, 7]) []
      (byFour.pushOutgoing [1, 2, 3, 4, 5, 6, 7]) := .pushOutgoing (.new rfl) _
  have hshort : ((byFour.pushOutgoing [1, 2, 3, 4, 5, 6, 7]).fetch .outgoing 0 3).1
      = .ok ⟨[1, 2, 3]⟩ := by cbv
  have hlong : ((byFour.pushOutgoing [1, 2, 3, 4, 5, 6, 7]).fetch .outgoing 0 (2 ^ 34 + 1)).1
      = .ok ⟨[1, 2, 3, 4]⟩ := by cbv
  refine ⟨⟨⟨[1, 2, 3]⟩, _, Prod.ext hshort rfl, ?_⟩, ⟨⟨[1, 2, 3, 4]⟩, _, Prod.ext hlong rfl, ?_⟩⟩
  · exact ((fetch_delivers hreached .outgoing 0 3).2 _ _ (Prod.ext hshort rfl)).2.2.2.2.2 (by decide)
  · rw [((fetch_delivers hreached .outgoing 0 (2 ^ 34 + 1)).2 _ _ (Prod.ext hlong rfl)).1]
    decide

/-- A buffer that holds nothing hands out a key of four gibibytes, which has no byte at all. -/
theorem not_inFull_fourGibibytes : Reached 1 [] [] byOne
    ∧ ∃ key b', byOne.fetch .incoming 1 (2 ^ 32) = (.ok key, b')
      ∧ ¬ InFull 1 (2 ^ 32) key byOne.incoming b'.incoming := by
  have hkey : (byOne.fetch .incoming 1 (2 ^ 32)).1 = .ok .empty := by cbv
  refine ⟨.new rfl, .empty, _, Prod.ext hkey rfl, fun hfull => ?_⟩
  exact absurd hfull.1 (by decide)

end KeyBuffer

end OneTimeChannel

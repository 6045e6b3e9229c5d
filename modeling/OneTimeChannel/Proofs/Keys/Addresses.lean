/-
  Ids are addresses in the stream.

  Two ends agree on keys because an id means the same piece of the stream at both of them: quantum
  number `i`, counted from 1, and nothing else.  It must not matter into which chunks the stream was cut
  when it was delivered, nor which keys were fetched in between.

  So the runs here are arbitrary, and their record is read off the stocks: what came is what is held
  after a step and was not before, what went is what was held before and is not any more.  One step
  leaves a stock alone, delivers to it, or takes a key from it (`stock_use_cases`).  In the first case
  nothing comes or goes, in the second the ids that follow come in their order, and in the third exactly
  the quanta of the key go.  The invariant is `KeyStock.Tracks` throughout.
-/
import OneTimeChannel.Proofs.Keys.Buffer
import Mathlib.Data.List.Permutation

namespace OneTimeChannel

open KeyStock (Tracks idsFrom quantaFor quantumAt keyAt)

/-! ## Runs -/

/-- The two directions of a key buffer. -/
inductive Direction where
  | outgoing
  | incoming
  deriving DecidableEq

/-- What can be done with a key buffer. -/
inductive KeyUse where
  | push (d : Direction) (bytes : Bytes)
  | fetchOutgoing (length : Nat)
  | fetchIncoming (id : UInt32) (length : Nat)

/-- The bytes that are delivered in one direction, in the order of delivery. -/
def KeyUse.delivered (d : Direction) : List KeyUse → Bytes
  | [] => []
  | push d' bytes :: rest => (if d' = d then bytes else []) ++ delivered d rest
  | fetchOutgoing _ :: rest => delivered d rest
  | fetchIncoming _ _ :: rest => delivered d rest

/-- The ids that one stock holds and another does not. -/
def KeyStock.idsBeyond (s other : KeyStock) : List UInt32 :=
  s.held.keys.filter fun id => !other.held.contains id

namespace KeyBuffer

/-- The stock of a direction. -/
def stock (b : KeyBuffer) : Direction → KeyStock
  | .outgoing => b.outgoing
  | .incoming => b.incoming

/-- The buffer afterwards, whatever comes of a request. -/
def use (b : KeyBuffer) : KeyUse → KeyBuffer
  | .push .outgoing bytes => b.pushOutgoing bytes
  | .push .incoming bytes => b.pushIncoming bytes
  | .fetchOutgoing length => (KeySource.fetchOutgoing b length).2
  | .fetchIncoming id length => (KeySource.fetchIncoming b id length).2

def useAll (b : KeyBuffer) (uses : List KeyUse) : KeyBuffer := uses.foldl use b

/-- The ids that come in over a run, in this order. -/
def arrivals (d : Direction) (b : KeyBuffer) : List KeyUse → List UInt32
  | [] => []
  | u :: rest => ((b.use u).stock d).idsBeyond (b.stock d) ++ arrivals d (b.use u) rest

/-- The ids that go out over a run, in this order. -/
def departures (d : Direction) (b : KeyBuffer) : List KeyUse → List UInt32
  | [] => []
  | u :: rest => (b.stock d).idsBeyond ((b.use u).stock d) ++ departures d (b.use u) rest

end KeyBuffer

/-! ## What a stock gains and loses -/

namespace KeyStock

variable {q : Nat} {stream : Bytes} {used : List UInt32} {s s' : KeyStock} {first : UInt32}
  {length : Nat} {key : Key}

theorem pairwise_idsBeyond (s other : KeyStock) : (s.idsBeyond other).Pairwise (· < ·) :=
  List.Pairwise.filter _ (s.held.ordered_keys.imp fun hlt => Std.compare_eq_lt.1 hlt)

/-- A list without repetitions that has the right members is a list of the ids. -/
theorem idsBeyond_perm {other : KeyStock} {ids : List UInt32} (hnodup : ids.Nodup)
    (hmem : ∀ id, id ∈ ids ↔ id ∈ s.held ∧ id ∉ other.held) : (s.idsBeyond other).Perm ids := by
  refine (List.perm_ext_iff_of_nodup ((pairwise_idsBeyond s other).imp UInt32.ne_of_lt) hnodup).2 ?_
  intro id
  rw [hmem, idsBeyond, List.mem_filter, Std.TreeMap.mem_keys, Bool.not_eq_true',
    Bool.eq_false_iff, ne_eq, Std.TreeMap.contains_iff_mem]

/-- A list in ascending order that has the right members is the list of the ids. -/
theorem idsBeyond_eq {other : KeyStock} {ids : List UInt32} (hordered : ids.Pairwise (· < ·))
    (hmem : ∀ id, id ∈ ids ↔ id ∈ s.held ∧ id ∉ other.held) : s.idsBeyond other = ids := by
  have hperm := idsBeyond_perm (hordered.imp UInt32.ne_of_lt) hmem
  refine hperm.eq_of_pairwise ?_ (pairwise_idsBeyond s other) hordered
  intro a b _ _ hab hba
  exact absurd hba (UInt32.lt_asymm hab)

theorem idsBeyond_eq_nil {other : KeyStock} (h : ∀ id ∈ s.held, id ∈ other.held) :
    s.idsBeyond other = [] := by
  refine idsBeyond_eq List.Pairwise.nil fun id => ?_
  simp only [List.not_mem_nil, false_iff, not_and, not_not]
  exact h id

/-- A delivery brings the ids that follow, in their order, and nothing goes. -/
theorem Tracks.idsBeyond_push (h : Tracks q stream used s) (bytes : Bytes)
    (hbound : (stream ++ bytes).length / q < 2 ^ 32 - 1) :
    idsFrom 1 (stream.length / q) ++ (s.push q bytes).idsBeyond s
        = idsFrom 1 ((stream ++ bytes).length / q)
      ∧ s.idsBeyond (s.push q bytes) = [] := by
  have hpush := h.push bytes hbound
  obtain ⟨more, hmore⟩ : ∃ more, (stream ++ bytes).length / q = stream.length / q + more :=
    Nat.exists_eq_add_of_le (Nat.div_le_div_right (by simp))
  have hfirst : (1 + UInt32.ofNat (stream.length / q)).toNat = stream.length / q + 1 := by
    rw [toNat_add_ofNat (by rw [UInt32.toNat_one]; omega), UInt32.toNat_one, Nat.add_comm]
  refine ⟨?_, idsBeyond_eq_nil ?_⟩
  · rw [hmore, idsFrom_append]
    congr 1
    have hlast : (1 + UInt32.ofNat (stream.length / q)).toNat + more ≤ 2 ^ 32 := by
      rw [hfirst]
      omega
    refine idsBeyond_eq (pairwise_lt_idsFrom hlast) fun id => ?_
    rw [mem_idsFrom hlast, hfirst, hpush.mem_held_iff, h.mem_held_iff, hmore]
    -- the ids beyond those delivered before were not used before
    have hused : id ∈ used → id.toNat ≤ stream.length / q := fun hid => (h.used_le id hid).2
    generalize stream.length / q = n at hused ⊢
    by_cases hid : id ∈ used
    · have := hused hid
      simp only [hid, not_true_eq_false, and_false, not_false_eq_true, and_true, iff_false]
      omega
    · simp only [hid, not_false_eq_true, and_true]
      omega
  · intro id hid
    rw [h.mem_held_iff] at hid
    rw [hpush.mem_held_iff]
    exact ⟨hid.1, by omega, hid.2.2⟩

/-- Taking a key costs exactly its quanta, and nothing comes. -/
theorem idsBeyond_take_perm (ht : s.take q first length = .ok (key, s')) :
    (s.idsBeyond s').Perm (idsFrom first (quantaFor q length)) ∧ s'.idsBeyond s = [] := by
  obtain ⟨hheld, heq⟩ := take_eq_ok_iff.1 ht
  obtain ⟨-, rfl⟩ := Prod.mk.inj heq
  have hleft : ∀ id, id ∈ (idsFrom first (quantaFor q length)).foldl (·.erase ·) s.held
      ↔ id ∈ s.held ∧ id ∉ idsFrom first (quantaFor q length) := by
    intro id
    rw [Std.TreeMap.mem_iff_isSome_getElem?, Std.TreeMap.mem_iff_isSome_getElem?,
      getElem?_foldl_erase]
    by_cases hid : id ∈ idsFrom first (quantaFor q length)
    · simp [hid]
    · simp [hid]
  constructor
  · refine idsBeyond_perm (nodup_idsFrom first (Nat.le_of_lt (quantaFor_lt q length))) fun id => ?_
    rw [hleft, not_and, not_not]
    exact ⟨fun hid => ⟨hheld id hid, fun _ => hid⟩, fun h => h.2 h.1⟩
  · exact idsBeyond_eq_nil fun id hid => ((hleft id).1 hid).1

/-- A stock that does not hold the id 0 loses the quanta of a key in the order in which they make it up. -/
theorem idsBeyond_take (hzero : 0 ∉ s.held) (ht : s.take q first length = .ok (key, s')) :
    s.idsBeyond s' = idsFrom first (quantaFor q length) ∧ s'.idsBeyond s = [] := by
  obtain ⟨hperm, hnone⟩ := idsBeyond_take_perm ht
  have hend := add_le_of_zero_not_mem_idsFrom fun h => hzero ((take_eq_ok_iff.1 ht).1 0 h)
  refine ⟨hperm.eq_of_pairwise ?_ (pairwise_idsBeyond s s') (pairwise_lt_idsFrom hend), hnone⟩
  intro a b _ _ hab hba
  exact absurd hba (UInt32.lt_asymm hab)

theorem HoldsUpTo.zero_not_mem_held {n : Nat} (h : HoldsUpTo q stream used n s) : 0 ∉ s.held := by
  intro hzero
  exact absurd (h.mem_held_iff.1 hzero).1 (Nat.lt_irrefl 0)

end KeyStock

/-! ## What a run does -/

namespace KeyBuffer

variable {q : Nat} {stream : Bytes} {used : List UInt32} {b : KeyBuffer} {d : Direction}

@[simp] theorem quantum_use (b : KeyBuffer) (u : KeyUse) : (b.use u).quantum = b.quantum := by
  cases u with
  | push d bytes => cases d <;> rfl
  | fetchOutgoing length => exact (fetchOutgoing_frame b length).1
  | fetchIncoming id length => exact (fetchIncoming_frame b id length).1

/-- A step leaves a stock alone, delivers to it, or takes a key from it.  Keys to send with are taken from
    the lowest id on. -/
theorem stock_use_cases (b : KeyBuffer) (u : KeyUse) (d : Direction) :
    (KeyUse.delivered d [u] = [] ∧ (b.use u).stock d = b.stock d)
      ∨ (b.use u).stock d = (b.stock d).push b.quantum (KeyUse.delivered d [u])
      ∨ KeyUse.delivered d [u] = [] ∧ ∃ first length key,
        (d = .outgoing → length ≠ 0 → (b.stock d).held.minKey? = some first)
          ∧ (b.stock d).take b.quantum first length = .ok (key, (b.use u).stock d) := by
  cases u with
  | push d' bytes =>
    by_cases hd : d' = d
    · subst hd
      refine Or.inr (Or.inl ?_)
      cases d' <;> simp [KeyUse.delivered, use, stock, pushOutgoing, pushIncoming]
    · refine Or.inl ⟨by simp [KeyUse.delivered, hd], ?_⟩
      cases d' <;> cases d <;> first | rfl | exact absurd rfl hd
  | fetchOutgoing length =>
    cases d with
    | incoming => exact Or.inl ⟨rfl, (fetchOutgoing_frame b length).2⟩
    | outgoing =>
      rcases hfetch : KeySource.fetchOutgoing b length with ⟨_ | ⟨id, key⟩, b'⟩
      · obtain rfl := KeySource.eq_of_outcome_eq_error hfetch
        exact Or.inl ⟨rfl, by rw [use, hfetch]⟩
      · obtain ⟨htake, -, hid⟩ := take_of_fetchOutgoing_eq_ok hfetch
        refine Or.inr (Or.inr ⟨rfl, id, length, key, fun _ hne => by rwa [if_neg hne] at hid, ?_⟩)
        rw [use, hfetch]
        exact htake
  | fetchIncoming id length =>
    cases d with
    | outgoing => exact Or.inl ⟨rfl, (fetchIncoming_frame b id length).2⟩
    | incoming =>
      rcases hfetch : KeySource.fetchIncoming b id length with ⟨_ | key, b'⟩
      · obtain rfl := KeySource.eq_of_outcome_eq_error hfetch
        exact Or.inl ⟨rfl, by rw [use, hfetch]⟩
      · refine Or.inr (Or.inr ⟨rfl, id, length, key, fun hd => absurd hd (by decide), ?_⟩)
        rw [use, hfetch]
        exact (fetchIncoming_eq_ok_iff.1 hfetch).1

/-- One step continues the stream, the ids that came, and the ids that went. -/
theorem tracks_use (h : Tracks b.quantum stream used (b.stock d)) (u : KeyUse)
    (hbound : (stream ++ KeyUse.delivered d [u]).length / b.quantum < 2 ^ 32 - 1) :
    Tracks b.quantum (stream ++ KeyUse.delivered d [u])
        (used ++ (b.stock d).idsBeyond ((b.use u).stock d)) ((b.use u).stock d)
      ∧ idsFrom 1 (stream.length / b.quantum) ++ ((b.use u).stock d).idsBeyond (b.stock d)
        = idsFrom 1 ((stream ++ KeyUse.delivered d [u]).length / b.quantum) := by
  rcases stock_use_cases b u d with ⟨hnone, hsame⟩ | hpush | ⟨hnone, first, length, key, -, htake⟩
  · have hself := KeyStock.idsBeyond_eq_nil (s := b.stock d) fun _ hid => hid
    rw [hnone, hsame, hself, List.append_nil, List.append_nil, List.append_nil]
    exact ⟨h, rfl⟩
  · obtain ⟨hcame, hwent⟩ := h.idsBeyond_push _ hbound
    rw [hpush, hwent, List.append_nil]
    exact ⟨h.push _ hbound, hcame⟩
  · rw [hnone, List.append_nil] at hbound ⊢
    obtain ⟨hwent, hcame⟩ := KeyStock.idsBeyond_take h.zero_not_mem_held htake
    rw [hwent, hcame, List.append_nil]
    exact ⟨h.take htake, rfl⟩

theorem delivered_cons (d : Direction) (u : KeyUse) (rest : List KeyUse) :
    KeyUse.delivered d (u :: rest) = KeyUse.delivered d [u] ++ KeyUse.delivered d rest := by
  cases u <;> simp [KeyUse.delivered]

/-- So does a run. -/
theorem tracks_useAll (h : Tracks b.quantum stream used (b.stock d)) (uses : List KeyUse)
    (hbound : (stream ++ KeyUse.delivered d uses).length / b.quantum < 2 ^ 32 - 1) :
    Tracks b.quantum (stream ++ KeyUse.delivered d uses) (used ++ departures d b uses)
        ((b.useAll uses).stock d)
      ∧ idsFrom 1 (stream.length / b.quantum) ++ arrivals d b uses
        = idsFrom 1 ((stream ++ KeyUse.delivered d uses).length / b.quantum) := by
  induction uses generalizing b stream used with
  | nil =>
    simp only [KeyUse.delivered, departures, arrivals, List.append_nil, and_true]
    exact h
  | cons u rest ih =>
    rw [delivered_cons, ← List.append_assoc] at hbound ⊢
    have hle : (stream ++ KeyUse.delivered d [u]).length / b.quantum
        ≤ (stream ++ KeyUse.delivered d [u] ++ KeyUse.delivered d rest).length / b.quantum :=
      Nat.div_le_div_right (by simp)
    obtain ⟨hstep, hcame⟩ := tracks_use h u (by omega)
    have hquantum := quantum_use b u
    rw [← hquantum] at hstep hbound
    obtain ⟨hrun, hcame'⟩ := ih hstep hbound
    rw [hquantum] at hrun hcame'
    rw [departures, arrivals, ← List.append_assoc, ← List.append_assoc, hcame, hcame']
    exact ⟨hrun, rfl⟩

theorem quantum_useAll (b : KeyBuffer) (uses : List KeyUse) :
    (b.useAll uses).quantum = b.quantum := by
  induction uses generalizing b with
  | nil => rfl
  | cons u rest ih => exact (ih (b.use u)).trans (quantum_use b u)

theorem stock_of_ofQuantum (hb : ofQuantum q = .ok b) (d : Direction) : b.stock d = .empty := by
  obtain ⟨-, houtgoing, hincoming⟩ := ofQuantum_eq_ok hb
  cases d with
  | outgoing => exact houtgoing
  | incoming => exact hincoming

/-- Every run of a new buffer. -/
theorem tracks_of_new (hb : ofQuantum q = .ok b) (d : Direction) (uses : List KeyUse)
    (hbound : (KeyUse.delivered d uses).length / q < 2 ^ 32 - 1) :
    Tracks q (KeyUse.delivered d uses) (departures d b uses) ((b.useAll uses).stock d)
      ∧ arrivals d b uses = idsFrom 1 ((KeyUse.delivered d uses).length / q) := by
  obtain ⟨rfl, -⟩ := ofQuantum_eq_ok hb
  have hstart : Tracks b.quantum [] [] (b.stock d) := by
    rw [stock_of_ofQuantum hb d]
    exact KeyStock.tracks_empty _
  have hrun := tracks_useAll hstart uses hbound
  simpa using hrun

/-! ## What ids stand for -/

/-- The ids of a run that starts at the first one, as numbers. -/
theorem map_toNat_idsFrom_one {n : Nat} (hn : n < 2 ^ 32 - 1) :
    (idsFrom 1 n).map UInt32.toNat = List.range' 1 n := by
  rw [idsFrom, List.map_map, List.range'_eq_map_range]
  refine List.map_congr_left fun i hi => ?_
  have hi := List.mem_range.1 hi
  rw [Function.comp_apply, KeyStock.toNat_add_ofNat (by rw [UInt32.toNat_one]; omega),
    UInt32.toNat_one]

/-- What a buffer holds after a run, told by the ids that came and those that went. -/
theorem getElem?_held_useAll (hb : ofQuantum q = .ok b) (d : Direction) (uses : List KeyUse)
    (hbound : (KeyUse.delivered d uses).length / q < 2 ^ 32 - 1) (id : UInt32) (key : Key) :
    ((b.useAll uses).stock d).held[id]? = some key ↔
      id ∈ arrivals d b uses ∧ id ∉ departures d b uses
        ∧ key = ⟨quantumAt q (KeyUse.delivered d uses) (id.toNat - 1)⟩ := by
  obtain ⟨htracks, harrivals⟩ := tracks_of_new hb d uses hbound
  rw [htracks.held_iff, harrivals, mem_idsFrom_one hbound, and_assoc]

/-- A key that was sent with is received as it is, by any buffer that has its quanta. -/
theorem exists_fetchIncoming_of_fetchOutgoing (hb : ofQuantum q = .ok b) {uses uses' : List KeyUse}
    (hsent : KeyUse.delivered .outgoing uses <+: stream)
    (hreceived : KeyUse.delivered .incoming uses' <+: stream)
    (hbound : (KeyUse.delivered .outgoing uses).length / q < 2 ^ 32 - 1)
    (hbound' : (KeyUse.delivered .incoming uses').length / q < 2 ^ 32 - 1)
    {length : Nat} (hpieces : pieceCount q length < 2 ^ 32) {id : UInt32} {key : Key}
    {sender : KeyBuffer}
    (hfetch : KeySource.fetchOutgoing (b.useAll uses) length = (.ok (id, key), sender))
    (hheld : ∀ i ∈ idsFrom id (pieceCount q length), i ∈ (b.useAll uses').incoming.held) :
    ∃ receiver, KeySource.fetchIncoming (b.useAll uses') id length = (.ok key, receiver) := by
  have hquantum : ∀ uses, (b.useAll uses).quantum = q := fun uses =>
    (quantum_useAll b uses).trans (ofQuantum_eq_ok hb).1
  have hq : 0 < q := (ofQuantum_eq_ok hb).1 ▸ b.quantum_pos
  obtain ⟨htracks, -⟩ := tracks_of_new hb .outgoing uses hbound
  obtain ⟨htracks', -⟩ := tracks_of_new hb .incoming uses' hbound'
  obtain ⟨htake, -, -⟩ := take_of_fetchOutgoing_eq_ok hfetch
  rw [hquantum] at htake
  obtain ⟨hkey, hlength⟩ := htracks.key_of_take hq hbound hpieces htake
  rw [← KeyStock.quantaFor_eq hpieces, ← hquantum uses'] at hheld
  obtain ⟨key', receiver, hfetch'⟩ := exists_fetchIncoming hheld
  have htake' := (fetchIncoming_eq_ok_iff.1 hfetch').1
  rw [hquantum] at htake'
  obtain ⟨hkey', hlength'⟩ := htracks'.key_of_take hq hbound' hpieces htake'
  -- both keys are cut from the same place of the common stream, and neither is cut short
  have hsame : key' = key := by
    obtain ⟨rest, hrest⟩ := hsent
    obtain ⟨rest', hrest'⟩ := hreceived
    calc key'
      _ = keyAt q stream id length := by
        rw [hkey', ← hrest', KeyStock.keyAt_append (by rw [← hkey', hlength'])]
      _ = key := by rw [hkey, ← hrest, KeyStock.keyAt_append (by rw [← hkey, hlength])]
  exact ⟨receiver, by rw [hfetch', hsame]⟩

/-- Ids address the stream.  After any run of a new buffer, the ids that came in a direction are 1, 2,
    3, …, one for each whole quantum that was delivered; those that did not go are held, each with its
    piece of the stream; and the rest of the stream, shorter than a quantum, waits.  So a key that one
    end sends with is the key that the other end finds under its id, if all its quanta are held there:
    both were fed the same stream, one of them perhaps not as far as the other, and cut and used as may
    be. -/
theorem ids_address_stream {q : Nat} (hq : 0 < q) :
    ∃ b, ofQuantum q = .ok b
      ∧ (∀ d uses, (KeyUse.delivered d uses).length / q < 2 ^ 32 - 1 →
        (arrivals d b uses).map UInt32.toNat
            = List.range' 1 ((KeyUse.delivered d uses).length / q)
          ∧ (∀ (id : UInt32) (key : Key), ((b.useAll uses).stock d).held[id]? = some key ↔
            id ∈ arrivals d b uses ∧ id ∉ departures d b uses
              ∧ key = ⟨((KeyUse.delivered d uses).drop ((id.toNat - 1) * q)).take q⟩)
          ∧ ((b.useAll uses).stock d).pending = (KeyUse.delivered d uses).drop
              ((KeyUse.delivered d uses).length / q * q)
          ∧ ((b.useAll uses).stock d).pending.length < q)
      ∧ ∀ uses uses' stream, KeyUse.delivered .outgoing uses <+: stream →
        KeyUse.delivered .incoming uses' <+: stream →
        (KeyUse.delivered .outgoing uses).length / q < 2 ^ 32 - 1 →
        (KeyUse.delivered .incoming uses').length / q < 2 ^ 32 - 1 →
        ∀ length, pieceCount q length < 2 ^ 32 → ∀ id key sender,
        KeySource.fetchOutgoing (b.useAll uses) length = (.ok (id, key), sender) →
        (∀ i ∈ idsFrom id (pieceCount q length), i ∈ (b.useAll uses').incoming.held) →
        ∃ receiver, KeySource.fetchIncoming (b.useAll uses') id length = (.ok key, receiver) := by
  have hb : ofQuantum q = .ok ⟨q, .empty, .empty, hq⟩ := dif_pos hq
  refine ⟨_, hb, ?run, ?peer⟩
  case run =>
    intro d uses hbound
    obtain ⟨htracks, harrivals⟩ := tracks_of_new hb d uses hbound
    refine ⟨?_, getElem?_held_useAll hb d uses hbound, htracks.pending_eq, ?_⟩
    · rw [harrivals, map_toNat_idsFrom_one hbound]
    · rw [htracks.pending_eq, List.length_drop, Nat.mul_comm, ← Nat.mod_eq_sub]
      exact Nat.mod_lt _ hq
  case peer =>
    intro uses uses' stream hsent hreceived hbound hbound' length hpieces id key sender hfetch hheld
    exact exists_fetchIncoming_of_fetchOutgoing hb hsent hreceived hbound hbound' hpieces hfetch hheld

/-- Thirteen bytes to send with, delivered in two pieces; the first key is fetched in between. -/
def sendingInTwo : List KeyUse :=
  [.push .outgoing [1, 2, 3, 4, 5], .fetchOutgoing 3, .push .outgoing [],
    .push .outgoing [6, 7, 8, 9, 10, 11, 12, 13]]

/-- Twelve of them to receive with; the first key is fetched only after the others came. -/
def receivingInThree : List KeyUse :=
  [.push .incoming [1], .fetchIncoming 1 3, .push .incoming [2, 3, 4, 5, 6, 7, 8],
    .push .incoming [9, 10, 11, 12], .fetchIncoming 1 3]

theorem ids_address_stream_byFour :
    (arrivals .outgoing byFour sendingInTwo).map UInt32.toNat = [1, 2, 3]
      ∧ ∃ receiver, KeySource.fetchIncoming (byFour.useAll receivingInThree) 2 6
        = (.ok ⟨[5, 6, 7, 8, 9, 10]⟩, receiver) := by
  obtain ⟨b, hb, hrun, hpeer⟩ := ids_address_stream (q := 4) (by decide)
  obtain rfl : byFour = b := Except.ok.inj hb
  refine ⟨(hrun .outgoing sendingInTwo (by decide)).1, ?_⟩
  have hfetch : (KeySource.fetchOutgoing (byFour.useAll sendingInTwo) 6).1
      = .ok (2, ⟨[5, 6, 7, 8, 9, 10]⟩) := by cbv
  have hheld : (idsFrom 2 (pieceCount 4 6)).all
      ((byFour.useAll receivingInThree).incoming.held.contains ·) = true := by cbv
  exact hpeer sendingInTwo receivingInThree [1, 2, 3, 4, 5, 6, 7, 8, 9, 10, 11, 12, 13]
    (by decide) (by decide) (by decide) (by decide) 6 (by decide) 2 _ _
    (Prod.ext hfetch rfl) fun i hi => Std.TreeMap.contains_iff_mem.1 (List.all_eq_true.1 hheld i hi)

end KeyBuffer

end OneTimeChannel

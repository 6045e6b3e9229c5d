/-
  Whether keys to receive with can be had is answered before any of them is taken.

  It is the sender of a message who names the keys, so the requests are whatever was written into a
  header: they may overlap, repeat each other, come round at the highest id, or ask for more than there
  is.  The answer comes from one pass that marks the quanta as it meets them.  Taking the keys, on the
  other hand, changes the stock from one key to the next.

  As far as the quanta go, both come to the same, because taking a key changes nothing but that its own
  quanta are gone (`spends_of_fetchIncoming`).  So a key can be had after others exactly if its quanta were
  held before all of them and are none of theirs.  But a key also needs room in memory, which the answer
  does not ask about.  So all keys are handed out exactly if the quanta they name are held, none is named
  twice, and each key finds room (`handsOutAll_iff`).  That says nothing about the order of the requests,
  and it holds of every buffer, however it came about.

  A key whose quanta are held would always find room, if its quanta were counted right: they lie in memory
  already (`KeyStock.roomFor_le_available`).  They are counted in 32 bits, and a key of 2 ^ 32 quanta and more is
  said to be available for the sake of a few of them, or of none (`not_handsOutAll_eightExbibytes`).
-/
import OneTimeChannel.Proofs.Keys.Fetching
import Mathlib.Data.List.Permutation

namespace OneTimeChannel.KeyBuffer

open KeyStock (idsFrom quantaFor roomFor maxRoom)

variable {b b' : KeyBuffer} {id : UInt32} {length : Nat} {key : Key} {requests order : List (UInt32 × Nat)}

/-! ## Quanta -/

/-- A key can be had exactly if all its quanta are held. -/
theorem isOk_fetchIncoming_iff : (KeySource.fetchIncoming b id length).1.isOk = true
    ↔ ∀ i ∈ idsFrom id (quantaFor b.quantum length), i ∈ b.incoming.held := by
  constructor
  · intro hok
    rcases hfetch : KeySource.fetchIncoming b id length with ⟨_ | key, b'⟩
    · rw [hfetch] at hok
      cases hok
    · exact (spends_of_fetchIncoming hfetch).mem_held
  · intro hheld
    obtain ⟨key, b', hfetch⟩ := exists_fetchIncoming hheld
    rw [hfetch]
    rfl

theorem requestedIds_cons (q : Nat) (id : UInt32) (length : Nat) (rest : List (UInt32 × Nat)) :
    requestedIds q ((id, length) :: rest)
      = idsFrom id (quantaFor q length) ++ requestedIds q rest := List.flatMap_cons

/-! ## Keys in memory -/

/-- What comes of asking for the keys of all these ids and lengths, one after the other.  A key that is
    refused costs nothing, and nothing comes after a fault. -/
def fetchEachIncoming (b : KeyBuffer) :
    List (UInt32 × Nat) → List (Except Fault (Except KeyError Key))
  | [] => []
  | (id, length) :: rest =>
    match b.fetchIncomingInMemory id length with
    | .error fault => [.error fault]
    | .ok (.error e) => .ok (.error e) :: b.fetchEachIncoming rest
    | .ok (.ok (key, b')) => .ok (.ok key) :: b'.fetchEachIncoming rest

/-- Every one of the keys is handed out when they are asked for one after the other. -/
def HandsOutAll (b : KeyBuffer) (requests : List (UInt32 × Nat)) : Prop :=
  ∀ r ∈ b.fetchEachIncoming requests, ∃ key, r = .ok (.ok key)

/-- A key is handed out in memory if it is handed out and finds room. -/
theorem fetchIncomingInMemory_eq_ok_iff :
    b.fetchIncomingInMemory id length = .ok (.ok (key, b'))
      ↔ KeySource.fetchIncoming b id length = (.ok key, b') ∧ roomFor b.quantum length ≤ maxRoom := by
  have hfetch : KeySource.fetchIncoming b id length
      = KeySource.outcome b (b.fetchIncoming id length) := rfl
  rw [fetchIncomingInMemory, KeyStock.inMemory_eq_ok_ok_iff, hfetch]
  refine and_congr_left fun _ => ⟨fun h => ?_, KeySource.eq_of_outcome_eq_ok⟩
  rw [h, KeySource.outcome_ok]

theorem handsOutAll_cons_iff : b.HandsOutAll ((id, length) :: requests)
    ↔ ∃ key b', b.fetchIncomingInMemory id length = .ok (.ok (key, b')) ∧ b'.HandsOutAll requests := by
  rw [HandsOutAll, fetchEachIncoming]
  rcases b.fetchIncomingInMemory id length with fault | e | ⟨key, b'⟩
  · simp
  · simp
  · simp [HandsOutAll]

/-- All keys are handed out exactly if their quanta are held, none is named twice, and each key finds
    room. -/
theorem handsOutAll_iff : b.HandsOutAll requests ↔
    ((requestedIds b.quantum requests).Nodup
        ∧ ∀ i ∈ requestedIds b.quantum requests, i ∈ b.incoming.held)
      ∧ ∀ request ∈ requests, roomFor b.quantum request.2 ≤ maxRoom := by
  induction requests generalizing b with
  | nil => simp [HandsOutAll, fetchEachIncoming, requestedIds]
  | cons request rest ih =>
    obtain ⟨id, length⟩ := request
    rw [handsOutAll_cons_iff, requestedIds_cons, List.forall_mem_append, List.nodup_append',
      List.forall_mem_cons]
    constructor
    · rintro ⟨key, b', hfetch, hlater⟩
      obtain ⟨hfetch, hroom⟩ := fetchIncomingInMemory_eq_ok_iff.1 hfetch
      have hspends := spends_of_fetchIncoming hfetch
      rw [ih, hspends.quantum_eq] at hlater
      obtain ⟨⟨hnodup, hheld⟩, hrooms⟩ := hlater
      -- what is held after the first key was held before and is none of its quanta
      refine ⟨⟨⟨hspends.nodup, hnodup, ?_⟩, hspends.mem_held, ?_⟩, hroom, hrooms⟩
      · intro i hfirst hlater
        exact (hspends.mem_held_iff.1 (hheld i hlater)).2 hfirst
      · intro i hlater
        exact (hspends.mem_held_iff.1 (hheld i hlater)).1
    · rintro ⟨⟨⟨-, hnodup, hapart⟩, hfirst, hheld⟩, hroom, hrooms⟩
      obtain ⟨key, b', hfetch⟩ := exists_fetchIncoming hfirst
      have hspends := spends_of_fetchIncoming hfetch
      refine ⟨key, b', fetchIncomingInMemory_eq_ok_iff.2 ⟨hfetch, hroom⟩, ?_⟩
      rw [ih, hspends.quantum_eq]
      refine ⟨⟨hnodup, fun i hlater => hspends.mem_held_iff.2 ⟨hheld i hlater, ?_⟩⟩, hrooms⟩
      exact fun hmem => hapart hmem hlater

/-! ## The answer -/

/-- In another order the same quanta are named. -/
theorem requestedIds_perm (q : Nat) (hperm : requests.Perm order) :
    (requestedIds q requests).Perm (requestedIds q order) := hperm.flatMap_right _

/-- What the answer is worth.  In any buffer at all, keys of these ids and lengths are handed out when they
    are asked for one after the other, in this order or in any other, exactly if they are said to be
    available and each of them finds room in memory.  The answer itself does not depend on the order.  So it
    is exact as long as no key takes 2 ^ 32 quanta or more. -/
theorem handsOutAll_iff_incomingAvailable (hperm : requests.Perm order) :
    (b.HandsOutAll order ↔ b.incomingAvailable requests = true
        ∧ ∀ request ∈ requests, roomFor b.quantum request.2 ≤ maxRoom)
      ∧ b.incomingAvailable order = b.incomingAvailable requests
      ∧ (b.incomingLength ≤ maxRoom →
        (∀ request ∈ requests, pieceCount b.quantum request.2 < 2 ^ 32) →
        (b.incomingAvailable requests = true ↔ b.HandsOutAll order)) := by
  have hids := requestedIds_perm b.quantum hperm
  have hsame : b.incomingAvailable requests = true ↔ b.incomingAvailable order = true := by
    rw [incomingAvailable_iff, incomingAvailable_iff, hids.nodup_iff]
    exact and_congr_right fun _ => forall_congr' fun i => imp_congr_left hids.mem_iff
  have hall : b.HandsOutAll order ↔ b.incomingAvailable requests = true
      ∧ ∀ request ∈ requests, roomFor b.quantum request.2 ≤ maxRoom := by
    rw [handsOutAll_iff, hsame, incomingAvailable_iff]
    exact and_congr_right fun _ => forall_congr' fun request => imp_congr_left hperm.mem_iff.symm
  refine ⟨hall, (Bool.eq_iff_iff.2 hsame).symm, fun hmemory hcounts => ?_⟩
  rw [hall]
  refine ⟨fun havailable => ⟨havailable, ?_⟩, And.left⟩
  rintro ⟨id, length⟩ hrequest
  have hheld : ∀ i ∈ idsFrom id (quantaFor b.quantum length), i ∈ b.incoming.held := fun i hi =>
    (incomingAvailable_iff.1 havailable).2 i (List.mem_flatMap.2 ⟨(id, length), hrequest, hi⟩)
  exact (KeyStock.roomFor_le_available (hcounts _ hrequest) hheld).trans hmemory

/-- Four quanta to receive with, of which the second was used. -/
def lackingSecond : KeyBuffer :=
  (KeySource.fetchIncoming
    (byFour.pushIncoming [1, 2, 3, 4, 5, 6, 7, 8, 9, 10, 11, 12, 13, 14, 15, 16]) 2 3).2

/-- Two keys that are apart, one of no bytes, and one of so many that its quanta, counted in 32 bits, are
    none at all, but which finds room; then two keys that share a quantum. -/
theorem handsOutAll_iff_incomingAvailable_lackingSecond :
    lackingSecond.HandsOutAll [(1, 4), (2, 2 ^ 34), (3, 7), (0, 0)]
      ∧ ¬ lackingSecond.HandsOutAll [(4, 1), (3, 8)] := by
  have havailable : lackingSecond.incomingAvailable [(3, 7), (0, 0), (1, 4), (2, 2 ^ 34)] = true := by
    cbv
  have hshared : lackingSecond.incomingAvailable [(3, 8), (4, 1)] = false := by cbv
  have hperm : [(3, 7), (0, 0), (1, 4), (2, 2 ^ 34)].Perm
      ([(1, 4), (2, 2 ^ 34), (3, 7), (0, 0)] : List (UInt32 × Nat)) := by decide
  have hswap : [(3, 8), (4, 1)].Perm ([(4, 1), (3, 8)] : List (UInt32 × Nat)) := by decide
  refine ⟨(handsOutAll_iff_incomingAvailable hperm).1.2 ⟨havailable, by decide⟩, fun hall => ?_⟩
  have hboth := ((handsOutAll_iff_incomingAvailable hswap).1.1 hall).1
  rw [hshared] at hboth
  cases hboth

/-- A buffer that holds nothing says that eight exbibytes are available, and cannot make room for them. -/
theorem not_handsOutAll_eightExbibytes : Reached 1 [] [] byOne
    ∧ byOne.incomingAvailable [(1, 2 ^ 63)] = true
    ∧ byOne.fetchIncomingInMemory 1 (2 ^ 63) = .error .capacityOverflow
    ∧ ¬ byOne.HandsOutAll [(1, 2 ^ 63)] := by
  have hfault : byOne.fetchIncomingInMemory 1 (2 ^ 63) = .error .capacityOverflow := by cbv
  refine ⟨.new rfl, by cbv, hfault, fun hall => ?_⟩
  obtain ⟨key, b', hfetch, -⟩ := handsOutAll_cons_iff.1 hall
  rw [hfault] at hfetch
  cases hfetch

end OneTimeChannel.KeyBuffer

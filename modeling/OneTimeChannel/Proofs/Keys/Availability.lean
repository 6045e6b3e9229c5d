/-
  Whether keys to send with can be had is answered before any of them is taken.

  The answer only counts: the quanta that the keys take, against the quanta that are held.  It does not
  look at where they are.  It is right because the quanta that are held are always a row of ids that ends
  with the last one delivered (`Sends.keys_held`).  Deliveries make the row longer at its end, keys make
  it shorter at its front by what they take, and a key that is refused leaves it alone.  So a key is
  handed out exactly if the row is as long as the key asks for, and one key after the other exactly if it
  is as long as all of them ask for together (`Sends.all_isOk_fetchEach_iff`).

  A key of no bytes takes no quantum and is handed out even by a buffer that holds nothing.

  The quanta are added up without a bound here.  With 64 bits for the sum the answer is the same for lists
  of up to 2 ^ 32 lengths (`outgoingAvailable_iff_mod`), and a channel asks for two keys at a time.
-/
import OneTimeChannel.Proofs.Keys.Buffer
import Mathlib.Algebra.Order.BigOperators.Group.List
import Mathlib.Data.List.Permutation
import Mathlib.Data.List.Sort

namespace OneTimeChannel.KeyBuffer

open KeyStock (idsFrom)

variable {b b' : KeyBuffer} {stream : Bytes} {n length : Nat} {lengths : List Nat}

/-! ## What is held -/

/-- What is held is the row of ids from the first one that was not used to the last one delivered. -/
theorem Sends.keys_held (h : b.Sends stream n) (hbound : stream.length / b.quantum < 2 ^ 32 - 1) :
    b.outgoing.held.keys
      = idsFrom (UInt32.ofNat (n + 1)) (stream.length / b.quantum - n) := by
  have hn := h.le hbound
  have hfirst : (UInt32.ofNat (n + 1)).toNat = n + 1 :=
    UInt32.toNat_ofNat_of_lt' (show n + 1 < 2 ^ 32 by omega)
  have hkeys : b.outgoing.held.keys.Pairwise (· < ·) :=
    b.outgoing.held.ordered_keys.imp fun hlt => Std.compare_eq_lt.1 hlt
  have hrow : (idsFrom (UInt32.ofNat (n + 1)) (stream.length / b.quantum - n)).Pairwise (· < ·) :=
    KeyStock.pairwise_lt_idsFrom (by omega)
  refine hkeys.eq_of_mem_iff hrow fun id => ?_
  rw [Std.TreeMap.mem_keys, h.mem_held_iff, mem_idsFrom_one (by omega),
    KeyStock.mem_idsFrom (by omega), hfirst]
  omega

theorem Sends.size_held (h : b.Sends stream n) (hbound : stream.length / b.quantum < 2 ^ 32 - 1) :
    n + b.outgoing.held.size = stream.length / b.quantum := by
  have hn := h.le hbound
  rw [← Std.TreeMap.length_keys, h.keys_held hbound, KeyStock.length_idsFrom]
  omega

/-! ## One key after the other -/

/-- What comes of asking for keys of all these lengths, one after the other. -/
def fetchEach (b : KeyBuffer) : List Nat → List (Except KeyError (UInt32 × Key))
  | [] => []
  | length :: rest =>
    (KeySource.fetchOutgoing b length).1 :: (KeySource.fetchOutgoing b length).2.fetchEach rest

/-- A key is handed out exactly if the quanta that it takes are left. -/
theorem Sends.isOk_fetchOutgoing_iff (h : b.Sends stream n)
    (hbound : stream.length / b.quantum < 2 ^ 32 - 1) (hcount : pieceCount b.quantum length < 2 ^ 32) :
    (KeySource.fetchOutgoing b length).1.isOk = true
      ↔ n + pieceCount b.quantum length ≤ stream.length / b.quantum := by
  constructor
  · intro hok
    rcases hfetch : KeySource.fetchOutgoing b length with ⟨_ | ⟨id, key⟩, b'⟩
    · rw [hfetch] at hok
      cases hok
    · have hquantum : b'.quantum = b.quantum := by rw [(take_of_fetchOutgoing_eq_ok hfetch).2.1]
      have hle := (h.fetchOutgoing hbound hfetch).1.le (by rwa [hquantum])
      rwa [KeyStock.quantaFor_eq hcount, hquantum] at hle
  · intro hleft
    obtain ⟨id, key, b', hfetch, -⟩ := h.exists_fetchOutgoing hbound hleft
    rw [hfetch]
    rfl

/-- All keys are handed out exactly if the quanta that they take together are left. -/
theorem Sends.all_isOk_fetchEach_iff (h : b.Sends stream n)
    (hbound : stream.length / b.quantum < 2 ^ 32 - 1)
    (hcounts : ∀ length ∈ lengths, pieceCount b.quantum length < 2 ^ 32) :
    (∀ r ∈ b.fetchEach lengths, r.isOk = true)
      ↔ n + (lengths.map (pieceCount b.quantum)).sum ≤ stream.length / b.quantum := by
  induction lengths generalizing b n with
  | nil =>
    have hn := h.le hbound
    simpa [fetchEach] using hn
  | cons length rest ih =>
    rw [List.forall_mem_cons] at hcounts
    rw [fetchEach, List.forall_mem_cons, h.isOk_fetchOutgoing_iff hbound hcounts.1, List.map_cons,
      List.sum_cons]
    by_cases hleft : n + pieceCount b.quantum length ≤ stream.length / b.quantum
    · obtain ⟨id, key, b', hfetch, hquantum, hb'⟩ := h.exists_fetchOutgoing hbound hleft
      rw [← hquantum] at hbound hcounts
      have hrest := ih hb' hbound hcounts.2
      rw [hfetch]
      dsimp only
      rw [hrest, hquantum, Nat.add_assoc]
      exact and_iff_right hleft
    · refine iff_of_false (fun hboth => hleft hboth.1) fun hall => hleft ?_
      omega

theorem outgoingAvailable_iff : b.outgoingAvailable lengths = true
    ↔ (lengths.map (pieceCount b.quantum)).sum ≤ b.outgoing.held.size := by
  rw [outgoingAvailable, decide_eq_true_iff, List.sum, List.foldr_map]

/-- A sum of 64 bits gives the same answer for as many as 2 ^ 32 keys. -/
theorem outgoingAvailable_iff_mod (hfew : lengths.length ≤ 2 ^ 32)
    (hcounts : ∀ length ∈ lengths, pieceCount b.quantum length < 2 ^ 32) :
    b.outgoingAvailable lengths = true
      ↔ (lengths.map (pieceCount b.quantum)).sum % 2 ^ 64 ≤ b.outgoing.held.size := by
  have hsum : (lengths.map (pieceCount b.quantum)).sum
      ≤ (lengths.map (pieceCount b.quantum)).length • (2 ^ 32 - 1) := by
    refine List.sum_le_card_nsmul _ _ fun count hcount => ?_
    obtain ⟨length, hmem, rfl⟩ := List.mem_map.1 hcount
    exact Nat.le_sub_one_of_lt (hcounts length hmem)
  rw [List.length_map, nsmul_eq_mul, Nat.cast_id] at hsum
  have hroom : lengths.length * (2 ^ 32 - 1) ≤ 2 ^ 32 * (2 ^ 32 - 1) := Nat.mul_le_mul_right _ hfew
  rw [outgoingAvailable_iff, Nat.mod_eq_of_lt (by omega)]

/-- Where keys of several lengths can be had, none of them takes more quanta than there are ids. -/
theorem Sends.pieceCount_lt (h : b.Sends stream n) (hbound : stream.length / b.quantum < 2 ^ 32 - 1)
    (havailable : b.outgoingAvailable lengths = true) (hmem : length ∈ lengths) :
    pieceCount b.quantum length < 2 ^ 32 := by
  have hsum := outgoingAvailable_iff.1 havailable
  have hle := List.le_sum_of_mem (List.mem_map_of_mem (f := pieceCount b.quantum) hmem)
  have hsize := h.size_held hbound
  omega

/-- Where the quanta are counted to suffice, no key is missing. -/
theorem Sends.outgoingAvailable_iff (h : b.Sends stream n)
    (hbound : stream.length / b.quantum < 2 ^ 32 - 1)
    (hcounts : ∀ length ∈ lengths, pieceCount b.quantum length < 2 ^ 32) :
    b.outgoingAvailable lengths = true ↔ ∀ r ∈ b.fetchEach lengths, r.isOk = true := by
  have hsize := h.size_held hbound
  rw [KeyBuffer.outgoingAvailable_iff, h.all_isOk_fetchEach_iff hbound hcounts]
  omega

/-- Two keys are handed out one after the other if they are there together. -/
theorem Sends.exists_fetchOutgoing_both {length' : Nat} (h : b.Sends stream n)
    (hbound : stream.length / b.quantum < 2 ^ 32 - 1)
    (havailable : b.outgoingAvailable [length, length'] = true) :
    ∃ r between r' b', KeySource.fetchOutgoing b length = (.ok r, between)
      ∧ KeySource.fetchOutgoing between length' = (.ok r', b') := by
  have hall := (h.outgoingAvailable_iff hbound fun _ => h.pieceCount_lt hbound havailable).1 havailable
  rw [fetchEach, fetchEach, List.forall_mem_cons, List.forall_mem_cons] at hall
  obtain ⟨hok, hok', -⟩ := hall
  rcases hfetch : KeySource.fetchOutgoing b length with ⟨_ | r, between⟩
  · rw [hfetch] at hok
    cases hok
  rw [hfetch] at hok'
  rcases hfetch' : KeySource.fetchOutgoing between length' with ⟨_ | r', b'⟩
  · rw [hfetch'] at hok'
    cases hok'
  exact ⟨r, between, r', b', rfl, hfetch'⟩

/-- Counting is exact: in a buffer that was filled and used in any way, keys of these lengths are said to
    be available exactly if every one of them is handed out when they are asked for one after the other.
    In which order they are named does not matter. -/
theorem outgoingAvailable_exact {q : Nat} {sent received : Bytes} (h : Reached q sent received b)
    (hbound : sent.length / q < 2 ^ 32 - 1)
    (hcounts : ∀ length ∈ lengths, pieceCount q length < 2 ^ 32) :
    (b.outgoingAvailable lengths = true ↔ ∀ r ∈ b.fetchEach lengths, r.isOk = true)
      ∧ ∀ lengths', lengths.Perm lengths' →
        b.outgoingAvailable lengths' = b.outgoingAvailable lengths := by
  constructor
  · obtain ⟨n, hn⟩ := h.exists_sends hbound
    rw [← h.quantum_eq] at hbound hcounts
    exact hn.outgoingAvailable_iff hbound hcounts
  · intro lengths' hperm
    have hsum := (hperm.map (pieceCount b.quantum)).sum_nat
    rw [Bool.eq_iff_iff, outgoingAvailable_iff, outgoingAvailable_iff, hsum]

/-- Two and a half quanta, a key of three bytes, and seven bytes more: the quanta 2, 3 and 4 are left. -/
def refilledByFour : KeyBuffer :=
  (KeySource.fetchOutgoing (byFour.pushOutgoing [1, 2, 3, 4, 5, 6, 7, 8, 9, 10]) 3).2.pushOutgoing
    [11, 12, 13, 14, 15, 16, 17]

theorem outgoingAvailable_exact_refilledByFour :
    (∀ r ∈ refilledByFour.fetchEach [5, 0, 4], r.isOk = true)
      ∧ refilledByFour.outgoingAvailable [0, 4, 5] = true
      ∧ ¬ ∀ r ∈ refilledByFour.fetchEach [5, 5], r.isOk = true := by
  have hnew : Reached 4 [] [] byFour := .new rfl
  have hreached : Reached 4
      ([] ++ [1, 2, 3, 4, 5, 6, 7, 8, 9, 10] ++ [11, 12, 13, 14, 15, 16, 17]) [] refilledByFour :=
    .pushOutgoing (.fetchOutgoing (.pushOutgoing hnew _) 3) _
  have havailable : refilledByFour.outgoingAvailable [5, 0, 4] = true := by cbv
  have hmissing : refilledByFour.outgoingAvailable [5, 5] = false := by cbv
  have hcounts : ∀ length ∈ [5, 0, 4], pieceCount 4 length < 2 ^ 32 := by decide
  have hcounts' : ∀ length ∈ [5, 5], pieceCount 4 length < 2 ^ 32 := by decide
  obtain ⟨hall, horder⟩ := outgoingAvailable_exact hreached (by decide) hcounts
  obtain ⟨hall', -⟩ := outgoingAvailable_exact hreached (by decide) hcounts'
  refine ⟨hall.1 havailable, (horder [0, 4, 5] (by decide)).trans havailable, ?_⟩
  rw [← hall', hmissing]
  exact Bool.false_ne_true

end OneTimeChannel.KeyBuffer

/-
  Ids that come round.

  There are 2 ^ 32 - 1 ids.  After so many quanta they start again with 1, so that an id alone does not say
  any more which quantum of the stream is meant.  Together with what is held it does, as long as fewer
  quanta are held than there are ids: then the stock is a queue (`KeyStock.Queues`), the quanta of the
  stream from some number on, each under its id and no two under the same.

  Deliveries keep the queue in any case (`Queues.push`), and so does a key that is taken from its front
  (`HoldsRow.take`).  Whether the lowest id is that of the front is another matter.  It is as long as all
  ids that are held are of one round (`HoldsRow.minKey?_of_oneRound`).  While some are of the round before
  and some of the next, the lowest one is 1 and the front is further up
  (`HoldsRow.minKey?_of_two_rounds`).
-/
import OneTimeChannel.Proofs.Keys.Addresses

namespace OneTimeChannel

open KeyStock (idsFrom quantaFor quantumAt)

namespace KeyStock

variable {q n N : Nat} {stream : Bytes} {s s' : KeyStock} {first id : UInt32} {length : Nat} {key : Key}

/-! ## Ids of quanta -/

/-- The id of quantum number `i` of a stream, counted from 0. -/
def idOf (i : Nat) : UInt32 := UInt32.ofNat (i % (2 ^ 32 - 1) + 1)

theorem toNat_idOf (i : Nat) : (idOf i).toNat = i % (2 ^ 32 - 1) + 1 := by
  have := Nat.mod_lt i (show 0 < 2 ^ 32 - 1 by decide)
  exact UInt32.toNat_ofNat_of_lt' (show i % (2 ^ 32 - 1) + 1 < 2 ^ 32 by omega)

theorem idOf_ne_zero (i : Nat) : idOf i ≠ 0 := by
  intro hzero
  have := toNat_idOf i
  rw [hzero, UInt32.toNat_zero] at this
  omega

/-- Ids are counted in the order of the quanta, and over 0 to the next round. -/
theorem idAfter_idOf (i : Nat) : idAfter (idOf i) = idOf (i + 1) := by
  have hid := toNat_idOf i
  have hnext := toNat_idOf (i + 1)
  have hsucc : (idOf i + 1).toNat = ((idOf i).toNat + 1) % 2 ^ 32 := by
    rw [UInt32.toNat_add, UInt32.toNat_one]
  rw [idAfter]
  split
  · next hzero =>
    rw [hzero, UInt32.toNat_zero] at hsucc
    apply UInt32.toNat_inj.1
    rw [hnext, UInt32.toNat_one]
    omega
  · next hne =>
    have hpos : (idOf i + 1).toNat ≠ 0 := fun h => hne (UInt32.toNat_inj.1 h)
    apply UInt32.toNat_inj.1
    rw [hnext]
    omega

/-- Among as many quanta in a row as there are ids, none has the id of another. -/
theorem idOf_inj {i j : Nat} (hi : n ≤ i ∧ i < n + (2 ^ 32 - 1)) (hj : n ≤ j ∧ j < n + (2 ^ 32 - 1))
    (h : idOf i = idOf j) : i = j := by
  have hmod : i % (2 ^ 32 - 1) + 1 = j % (2 ^ 32 - 1) + 1 := by rw [← toNat_idOf, h, toNat_idOf]
  omega

/-- Quanta of one round have consecutive ids. -/
theorem idsFrom_idOf {count : Nat} (h : n % (2 ^ 32 - 1) + count ≤ 2 ^ 32 - 1) :
    idsFrom (idOf n) count = (List.range' n count).map idOf := by
  rw [idsFrom, List.range'_eq_map_range, List.map_map]
  refine List.map_congr_left fun i hi => ?_
  have hi := List.mem_range.1 hi
  have hn := toNat_idOf n
  apply UInt32.toNat_inj.1
  rw [Function.comp_apply, toNat_idOf, toNat_add_ofNat (by omega), hn]
  omega

/-! ## Queues -/

/-- The stock holds the quanta with the numbers `n`, …, `N - 1` of the stream, each under its id, and not
    more of them than there are ids. -/
structure HoldsRow (q : Nat) (stream : Bytes) (n N : Nat) (s : KeyStock) : Prop where
  le : n ≤ N
  few : N ≤ n + (2 ^ 32 - 1)
  nextId_eq : s.nextId = idOf N
  held_iff : ∀ (id : UInt32) (key : Key), s.held[id]? = some key ↔
    ∃ i, (n ≤ i ∧ i < N) ∧ idOf i = id ∧ key = ⟨quantumAt q stream i⟩

/-- The stock is a queue: it holds what was delivered with the stream, but for the first `n` quanta. -/
structure Queues (q : Nat) (stream : Bytes) (n : Nat) (s : KeyStock) : Prop
    extends HoldsRow q stream n (stream.length / q) s where
  pending_eq : s.pending = stream.drop (stream.length / q * q)

theorem queues_empty (q : Nat) : Queues q [] 0 empty where
  le := Nat.zero_le _
  few := by simp
  nextId_eq := by simp [empty, idOf]
  held_iff := by simp [empty]
  pending_eq := by simp [empty]

theorem HoldsRow.mem_held_iff (h : HoldsRow q stream n N s) :
    id ∈ s.held ↔ ∃ i, (n ≤ i ∧ i < N) ∧ idOf i = id := by
  rw [Std.TreeMap.mem_iff_isSome_getElem?, Option.isSome_iff_exists]
  simp only [h.held_iff]
  constructor
  · rintro ⟨key, i, hi, hid, -⟩
    exact ⟨i, hi, hid⟩
  · rintro ⟨i, hi, hid⟩
    exact ⟨_, i, hi, hid, rfl⟩

theorem HoldsRow.idOf_mem_held (h : HoldsRow q stream n N s) {i : Nat} (hi : n ≤ i) (hi' : i < N) :
    idOf i ∈ s.held := h.mem_held_iff.2 ⟨i, ⟨hi, hi'⟩, rfl⟩

theorem HoldsRow.zero_not_mem_held (h : HoldsRow q stream n N s) : 0 ∉ s.held := by
  intro hzero
  obtain ⟨i, -, hid⟩ := h.mem_held_iff.1 hzero
  exact idOf_ne_zero i hid

theorem HoldsRow.size_held (h : HoldsRow q stream n N s) : s.held.size = N - n := by
  have hfew := h.few
  have hnodup : ((List.range' n (N - n)).map idOf).Nodup := by
    refine List.Nodup.map_on ?_ List.nodup_range'
    intro i hi j hj hij
    rw [List.mem_range'_1] at hi hj
    exact idOf_inj (n := n) (by omega) (by omega) hij
  have hkeys : s.held.keys.Nodup := Std.TreeMap.nodup_keys
  have hperm : s.held.keys.Perm ((List.range' n (N - n)).map idOf) := by
    refine (List.perm_ext_iff_of_nodup hkeys hnodup).2 fun id => ?_
    rw [Std.TreeMap.mem_keys, h.mem_held_iff, List.mem_map]
    refine exists_congr fun i => and_congr_left fun _ => ?_
    rw [List.mem_range'_1]
    omega
  rw [← Std.TreeMap.length_keys, hperm.length_eq, List.length_map, List.length_range']

/-! ## Delivery -/

theorem HoldsRow.append (h : HoldsRow q stream n N s) (hN : N * q ≤ stream.length) (bytes : Bytes) :
    HoldsRow q (stream ++ bytes) n N s where
  le := h.le
  few := h.few
  nextId_eq := h.nextId_eq
  held_iff := by
    intro id key
    rw [h.held_iff]
    refine exists_congr fun i => and_congr_right fun hi => ?_
    rw [quantumAt_append bytes (Nat.le_trans (Nat.mul_le_mul_right q hi.2) hN)]

/-- The next quantum gets the next id, and with it a place of its own. -/
theorem HoldsRow.deliver (h : HoldsRow q stream n N s) (hsize : s.held.size < 2 ^ 32 - 1) :
    HoldsRow q stream n (N + 1) (s.deliver (quantumAt q stream N)) where
  le := Nat.le_succ_of_le h.le
  few := by
    have hle := h.le
    rw [h.size_held] at hsize
    omega
  nextId_eq := by simp only [KeyStock.deliver, h.nextId_eq, idAfter_idOf]
  held_iff := by
    intro id key
    have hle := h.le
    rw [h.size_held] at hsize
    simp only [KeyStock.deliver, Std.TreeMap.getElem?_insert, h.nextId_eq]
    by_cases hid : idOf N = id
    · have hcmp : compare (idOf N) id = .eq := by rw [hid, Std.compare_self]
      rw [if_pos hcmp]
      constructor
      · intro hkey
        exact ⟨N, ⟨hle, Nat.lt_succ_self N⟩, hid, by rw [← Option.some.inj hkey]⟩
      · rintro ⟨i, hi, hid', rfl⟩
        obtain rfl := idOf_inj (n := n) (j := N) (by omega) (by omega) (hid'.trans hid.symm)
        rfl
    · have hcmp : compare (idOf N) id ≠ .eq := by simpa using hid
      rw [if_neg hcmp, h.held_iff]
      refine exists_congr fun i => and_congr_left fun hi => ?_
      obtain ⟨hid', -⟩ := hi
      have hne : i ≠ N := by
        rintro rfl
        exact hid hid'
      omega

theorem size_le_size_deliverAll (q count : Nat) (s : KeyStock) (stream : Bytes) :
    s.held.size ≤ (deliverAll q count s stream).held.size := by
  induction count generalizing s stream with
  | zero => exact Nat.le_refl _
  | succ count ih =>
    have hinsert : s.held.size ≤ (s.deliver (stream.take q)).held.size :=
      Std.TreeMap.size_le_size_insert
    exact Nat.le_trans hinsert (ih _ _)

theorem size_deliverAll_le (q count : Nat) (s : KeyStock) (stream : Bytes) :
    (deliverAll q count s stream).held.size ≤ s.held.size + count := by
  induction count generalizing s stream with
  | zero => exact Nat.le_refl _
  | succ count ih =>
    have hinsert : (s.deliver (stream.take q)).held.size ≤ s.held.size + 1 :=
      Std.TreeMap.size_insert_le
    have hrest := ih (s.deliver (stream.take q)) (stream.drop q)
    rw [KeyStock.deliverAll]
    omega

/-- If fewer quanta are held in the end than there are ids, none has taken the place of another. -/
theorem HoldsRow.deliverAll (count : Nat) (h : HoldsRow q stream n N s)
    (hsize : (deliverAll q count s (stream.drop (N * q))).held.size < 2 ^ 32 - 1) :
    HoldsRow q stream n (N + count) (KeyStock.deliverAll q count s (stream.drop (N * q)))
      ∧ (KeyStock.deliverAll q count s (stream.drop (N * q))).pending
        = stream.drop ((N + count) * q) := by
  induction count generalizing N s with
  | zero => exact ⟨⟨h.le, h.few, h.nextId_eq, h.held_iff⟩, rfl⟩
  | succ count ih =>
    have hnow : s.held.size < 2 ^ 32 - 1 :=
      Nat.lt_of_le_of_lt (size_le_size_deliverAll q (count + 1) s _) hsize
    have hrest : (stream.drop (N * q)).drop q = stream.drop ((N + 1) * q) := by
      rw [List.drop_drop, Nat.succ_mul]
    rw [KeyStock.deliverAll, hrest] at hsize ⊢
    rw [← Nat.succ_add_eq_add_succ]
    exact ih (h.deliver hnow) hsize

/-- Deliveries append to the queue. -/
theorem Queues.push (h : Queues q stream n s) (bytes : Bytes)
    (hsize : (s.push q bytes).held.size < 2 ^ 32 - 1) :
    Queues q (stream ++ bytes) n (s.push q bytes) := by
  have hcount := div_add_div_rest q stream bytes
  have hpending := rest_append q stream bytes
  rw [← h.pending_eq] at hcount hpending
  rw [KeyStock.push, hpending] at hsize
  obtain ⟨hholds, hrest⟩ :=
    (h.toHoldsRow.append (Nat.div_mul_le_self _ _) bytes).deliverAll _ hsize
  rw [← hpending, hcount] at hholds hrest
  exact ⟨hholds, hrest⟩

theorem Queues.size_push_le (h : Queues q stream n s) (bytes : Bytes) :
    n + (s.push q bytes).held.size ≤ (stream ++ bytes).length / q := by
  have hcount := div_add_div_rest q stream bytes
  have hpush := size_deliverAll_le q ((s.pending ++ bytes).length / q) s (s.pending ++ bytes)
  have hle := h.le
  rw [← h.pending_eq] at hcount
  rw [h.size_held] at hpush
  rw [KeyStock.push]
  omega

/-! ## One round or two -/

/-- All ids that are held are of one round, and so is the next one or it is the first of a new round. -/
def OneRound (s : KeyStock) : Prop :=
  (∀ id ∈ s.held, id < s.nextId) ∨ ∀ id ∈ s.held, s.nextId ≤ id

/-- In terms of the stream: it has not gone on beyond the round of the first quantum that is held. -/
theorem HoldsRow.oneRound_iff (h : HoldsRow q stream n N s) (hsize : s.held.size < 2 ^ 32 - 1) :
    s.OneRound ↔ N ≤ (n / (2 ^ 32 - 1) + 1) * (2 ^ 32 - 1) := by
  have hle := h.le
  rw [h.size_held] at hsize
  have hN := toNat_idOf N
  rw [OneRound, h.nextId_eq]
  constructor
  · intro hone
    by_contra hbeyond
    -- then quantum `m` is held too, which is the first of the next round
    obtain ⟨m, hm⟩ : ∃ m, m = (n / (2 ^ 32 - 1) + 1) * (2 ^ 32 - 1) := ⟨_, rfl⟩
    have hfirst := toNat_idOf n
    have hround := toNat_idOf m
    rcases hone with hlt | hge
    · have := UInt32.lt_iff_toNat_lt.1 (hlt _ (h.idOf_mem_held (Nat.le_refl n) (by omega)))
      omega
    · have := UInt32.le_iff_toNat_le.1 (hge _ (h.idOf_mem_held (i := m) (by omega) (by omega)))
      omega
  · intro hend
    rcases Nat.lt_or_eq_of_le hend with hlt | heq
    · refine Or.inl fun id hid => ?_
      obtain ⟨i, hi, rfl⟩ := h.mem_held_iff.1 hid
      rw [UInt32.lt_iff_toNat_lt, toNat_idOf, toNat_idOf]
      omega
    · refine Or.inr fun id hid => ?_
      obtain ⟨i, hi, rfl⟩ := h.mem_held_iff.1 hid
      rw [UInt32.le_iff_toNat_le, toNat_idOf, toNat_idOf]
      omega

/-- As long as all ids are of one round, the lowest one is that of the front of the queue. -/
theorem HoldsRow.minKey?_of_oneRound (h : HoldsRow q stream n N s) (hsize : s.held.size < 2 ^ 32 - 1)
    (hone : s.OneRound) (hne : n < N) : s.held.minKey? = some (idOf n) := by
  have hend := (h.oneRound_iff hsize).1 hone
  rw [Std.TreeMap.minKey?_eq_some_iff_mem_and_forall]
  refine ⟨h.idOf_mem_held (Nat.le_refl n) hne, fun id hid => ?_⟩
  obtain ⟨i, hi, rfl⟩ := h.mem_held_iff.1 hid
  rw [Std.isLE_compare, UInt32.le_iff_toNat_le, toNat_idOf, toNat_idOf]
  omega

/-- Else the lowest id is the first of the new round, and the front of the queue has another one. -/
theorem HoldsRow.minKey?_of_two_rounds (h : HoldsRow q stream n N s)
    (hsize : s.held.size < 2 ^ 32 - 1) (htwo : ¬ s.OneRound) :
    s.held.minKey? = some 1 ∧ idOf n ≠ 1 := by
  rw [h.oneRound_iff hsize, Nat.not_le] at htwo
  rw [h.size_held] at hsize
  obtain ⟨m, hm⟩ : ∃ m, m = (n / (2 ^ 32 - 1) + 1) * (2 ^ 32 - 1) := ⟨_, rfl⟩
  have hround : idOf m = 1 := by
    rw [← UInt32.toNat_inj, toNat_idOf, UInt32.toNat_one]
    omega
  constructor
  · rw [Std.TreeMap.minKey?_eq_some_iff_mem_and_forall]
    refine ⟨hround ▸ h.idOf_mem_held (by omega) (by omega), fun id hid => ?_⟩
    obtain ⟨i, hi, rfl⟩ := h.mem_held_iff.1 hid
    rw [Std.isLE_compare, UInt32.le_iff_toNat_le, toNat_idOf, UInt32.toNat_one]
    omega
  · intro hfirst
    have := toNat_idOf n
    rw [hfirst, UInt32.toNat_one] at this
    omega

/-! ## Use -/

/-- A key that starts at the front takes the quanta there, and leaves the others. -/
theorem HoldsRow.take (h : HoldsRow q stream n N s) (ht : s.take q first length = .ok (key, s'))
    (hfirst : quantaFor q length ≠ 0 → first = idOf n) :
    idsFrom first (quantaFor q length) = (List.range' n (quantaFor q length)).map idOf
      ∧ HoldsRow q stream (n + quantaFor q length) N s' := by
  obtain ⟨hheld, heq⟩ := take_eq_ok_iff.1 ht
  obtain ⟨-, rfl⟩ := Prod.mk.inj heq
  have hnozero : 0 ∉ idsFrom first (quantaFor q length) := fun hzero =>
    h.zero_not_mem_held (hheld 0 hzero)
  generalize quantaFor q length = count at hheld hnozero hfirst ⊢
  rcases Nat.eq_zero_or_pos count with rfl | hpos
  · exact ⟨rfl, h⟩
  obtain rfl := hfirst (Nat.ne_of_gt hpos)
  have hend := add_le_of_zero_not_mem_idsFrom hnozero
  rw [toNat_idOf] at hend
  have hids := idsFrom_idOf (show n % (2 ^ 32 - 1) + count ≤ 2 ^ 32 - 1 by omega)
  rw [hids] at hheld ⊢
  have hmem : ∀ i, n ≤ i → i < n + count → idOf i ∈ (List.range' n count).map idOf :=
    fun i hi hi' => List.mem_map_of_mem (List.mem_range'_1.2 ⟨hi, hi'⟩)
  have hle := h.le
  have hfew := h.few
  have hroom : n + count ≤ N := by
    obtain ⟨i, hi, hid⟩ := h.mem_held_iff.1 (hheld _ (hmem (n + count - 1) (by omega) (by omega)))
    have := idOf_inj (n := n) (by omega) (by omega) hid
    omega
  refine ⟨rfl, hroom, by omega, h.nextId_eq, fun id key => ?_⟩
  rw [getElem?_foldl_erase]
  split
  · next hgone =>
    obtain ⟨j, hj, rfl⟩ := List.mem_map.1 hgone
    rw [List.mem_range'_1] at hj
    simp only [reduceCtorEq, false_iff, not_exists, not_and]
    intro i hi hid
    have := idOf_inj (n := n) (by omega) (by omega) hid
    omega
  · next hleft =>
    rw [h.held_iff]
    refine exists_congr fun i => and_congr_left fun hi => ?_
    obtain ⟨hid, -⟩ := hi
    have hbeyond : n ≤ i → ¬ i < n + count := fun hi hi' => hleft (hid ▸ hmem i hi hi')
    omega

/-- A key that starts at the front is handed out if its quanta are held and of one round. -/
theorem HoldsRow.exists_take (h : HoldsRow q stream n N s)
    (hround : n % (2 ^ 32 - 1) + quantaFor q length ≤ 2 ^ 32 - 1)
    (hroom : n + quantaFor q length ≤ N) : ∃ key s', s.take q (idOf n) length = .ok (key, s') := by
  refine ⟨_, _, take_eq_ok_iff.2 ⟨fun id hid => ?_, rfl⟩⟩
  rw [idsFrom_idOf hround] at hid
  obtain ⟨i, hi, rfl⟩ := List.mem_map.1 hid
  rw [List.mem_range'_1] at hi
  exact h.idOf_mem_held hi.1 (by omega)

/-- Taking a key does not make a stock larger, wherever the key starts. -/
theorem size_take_le (ht : s.take q first length = .ok (key, s')) : s'.held.size ≤ s.held.size := by
  obtain ⟨-, heq⟩ := take_eq_ok_iff.1 ht
  obtain ⟨-, rfl⟩ := Prod.mk.inj heq
  generalize idsFrom first (quantaFor q length) = ids, s.held = held
  induction ids generalizing held with
  | nil => exact Nat.le_refl _
  | cons id rest ih => exact Nat.le_trans (ih (held.erase id)) Std.TreeMap.size_erase_le

/-- The ids are those of quanta in a row, from number `n` on. -/
def InRow (n : Nat) (ids : List UInt32) : Prop := ids = (List.range' n ids.length).map idOf

theorem inRow_nil (n : Nat) : InRow n [] := rfl

theorem inRow_append {ids more : List UInt32} :
    InRow n (ids ++ more) ↔ InRow n ids ∧ InRow (n + ids.length) more := by
  rw [InRow, List.length_append, ← List.range'_append_1, List.map_append]
  constructor
  · intro h
    exact List.append_inj h (by simp)
  · rintro ⟨hids, hmore⟩
    exact congrArg₂ _ hids hmore

/-- The `count` quanta of a stream from number `n` on. -/
def quantaAt (q : Nat) (stream : Bytes) (n count : Nat) : List Key :=
  (List.range' n count).map fun i => ⟨quantumAt q stream i⟩

@[simp] theorem length_quantaAt (q : Nat) (stream : Bytes) (n count : Nat) :
    (quantaAt q stream n count).length = count := by
  rw [quantaAt, List.length_map, List.length_range']

theorem quantaAt_add (q : Nat) (stream : Bytes) (n count more : Nat) :
    quantaAt q stream n (count + more)
      = quantaAt q stream n count ++ quantaAt q stream (n + count) more := by
  rw [quantaAt, ← List.range'_append_1, List.map_append]
  rfl

theorem quantaAt_append {count : Nat} (h : n + count ≤ stream.length / q) (bytes : Bytes) :
    quantaAt q (stream ++ bytes) n count = quantaAt q stream n count := by
  refine List.map_congr_left fun i hi => ?_
  have hi := List.mem_range'_1.1 hi
  have hroom : (i + 1) * q ≤ stream.length :=
    Nat.le_trans (Nat.mul_le_mul_right q (by omega)) (Nat.div_mul_le_self stream.length q)
  rw [quantumAt_append bytes hroom]

/-- What is held under the ids of quanta are the quanta. -/
theorem HoldsRow.map_getD (h : HoldsRow q stream n N s) {ids : List UInt32} (hids : InRow n ids)
    (hroom : n + ids.length ≤ N) :
    (ids.map fun id => s.held.getD id .empty) = quantaAt q stream n ids.length := by
  rw [hids, List.map_map, quantaAt, List.length_map, List.length_range']
  refine List.map_congr_left fun i hi => ?_
  have hi := List.mem_range'_1.1 hi
  have hkey := (h.held_iff (idOf i) ⟨quantumAt q stream i⟩).2 ⟨i, by omega, rfl, rfl⟩
  rw [Function.comp_apply, Std.TreeMap.getD_eq_getD_getElem?, hkey, Option.getD_some]

end KeyStock

end OneTimeChannel

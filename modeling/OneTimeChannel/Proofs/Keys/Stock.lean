/-
  What a stock of quanta holds.

  Three things decide it that are not in the stock itself: the size of a quantum, the stream of all the
  bytes that were ever delivered, and the ids that were used so far.  `Tracks` says how: the ids 1, 2, 3, …
  up to the number of whole quanta in the stream were delivered, and held are those among them that were
  not used, each with its own piece of the stream.  Delivering bytes makes the stream longer
  (`Tracks.push`), taking a key makes the list of used ids longer (`Tracks.take`), and nothing else
  happens to either.

  All of this is about fewer than 2 ^ 32 - 1 quanta; after so many, ids come round again.
-/
import OneTimeChannel.Keys.Stock
import Mathlib.Data.List.Nodup
import Mathlib.Tactic.Ring

namespace OneTimeChannel

theorem pieceCount_zero {size : Nat} (hsize : 0 < size) : pieceCount size 0 = 0 := by
  rw [pieceCount, Nat.zero_add, Nat.div_eq_of_lt (Nat.sub_lt hsize Nat.one_pos)]

/-- The pieces are as many as it takes. -/
theorem le_pieceCount_mul {size : Nat} (hsize : 0 < size) (length : Nat) :
    length ≤ pieceCount size length * size := by
  have hdiv := Nat.lt_div_mul_add (a := length + size - 1) hsize
  rw [pieceCount]
  omega

theorem pieceCount_pos {size length : Nat} (hsize : 0 < size) (hlength : 0 < length) :
    0 < pieceCount size length :=
  Nat.div_pos (by omega) hsize

/-- No piece is empty. -/
theorem pieceCount_le {size : Nat} (hsize : 0 < size) (length : Nat) :
    pieceCount size length ≤ length := by
  rw [pieceCount]
  rcases Nat.eq_zero_or_pos length with rfl | hlength
  · rw [Nat.zero_add, Nat.div_eq_of_lt (Nat.sub_lt hsize Nat.one_pos)]
  · refine Nat.div_le_of_le_mul ?_
    obtain ⟨s, rfl⟩ := Nat.exists_eq_add_one.2 hsize
    obtain ⟨l, rfl⟩ := Nat.exists_eq_add_one.2 hlength
    have : (s + 1) * (l + 1) = s * l + s + l + 1 := by ring
    omega

namespace KeyStock

/-! ## Runs of ids -/

@[simp] theorem idsFrom_zero (first : UInt32) : idsFrom first 0 = [] := rfl

@[simp] theorem length_idsFrom (first : UInt32) (count : Nat) :
    (idsFrom first count).length = count := by
  rw [idsFrom, List.length_map, List.length_range]

/-- Counting on without coming round. -/
theorem toNat_add_one {id : UInt32} (h : id.toNat + 1 < 2 ^ 32) : (id + 1).toNat = id.toNat + 1 := by
  rw [UInt32.toNat_add, UInt32.toNat_one, Nat.mod_eq_of_lt h]

theorem add_ofNat_succ (first : UInt32) (i : Nat) :
    first + UInt32.ofNat (i + 1) = first + 1 + UInt32.ofNat i := by
  rw [UInt32.add_assoc, UInt32.add_comm 1, ← UInt32.ofNat_one, ← UInt32.ofNat_add]

theorem idsFrom_succ (first : UInt32) (count : Nat) :
    idsFrom first (count + 1) = first :: idsFrom (first + 1) count := by
  rw [idsFrom, List.range_succ_eq_map, List.map_cons, List.map_map, idsFrom]
  refine congrArg₂ List.cons (UInt32.add_zero first) (List.map_congr_left ?_)
  intro i _
  exact add_ofNat_succ first i

theorem idsFrom_append (first : UInt32) (m n : Nat) :
    idsFrom first (m + n) = idsFrom first m ++ idsFrom (first + UInt32.ofNat m) n := by
  induction m generalizing first with
  | zero => simp
  | succ m ih =>
    rw [Nat.succ_add, idsFrom_succ, idsFrom_succ, ih, ← add_ofNat_succ, List.cons_append]

theorem mem_idsFrom_iff_exists {first id : UInt32} {count : Nat} :
    id ∈ idsFrom first count ↔ ∃ k < count, first + UInt32.ofNat k = id := by
  simp only [idsFrom, List.mem_map, List.mem_range]

theorem toNat_add_ofNat {first : UInt32} {k : Nat} (h : first.toNat + k < 2 ^ 32) :
    (first + UInt32.ofNat k).toNat = first.toNat + k := by
  rw [UInt32.toNat_add, UInt32.toNat_ofNat', Nat.mod_eq_of_lt (a := k) (by omega),
    Nat.mod_eq_of_lt (by omega)]

/-- The ids of a run that does not come round are counted up. -/
theorem mem_idsFrom {first id : UInt32} {count : Nat} (h : first.toNat + count ≤ 2 ^ 32) :
    id ∈ idsFrom first count ↔ first.toNat ≤ id.toNat ∧ id.toNat < first.toNat + count := by
  rw [mem_idsFrom_iff_exists]
  constructor
  · rintro ⟨i, hi, rfl⟩
    rw [toNat_add_ofNat (by omega)]
    omega
  · rintro ⟨hle, hlt⟩
    refine ⟨id.toNat - first.toNat, by omega, UInt32.toNat_inj.1 ?_⟩
    rw [toNat_add_ofNat (by omega)]
    omega

theorem pairwise_lt_idsFrom {first : UInt32} {count : Nat} (h : first.toNat + count ≤ 2 ^ 32) :
    (idsFrom first count).Pairwise (· < ·) := by
  induction count generalizing first with
  | zero => exact List.Pairwise.nil
  | succ count ih =>
    rcases Nat.eq_zero_or_pos count with rfl | hpos
    · simp [idsFrom_succ]
    have hnext : (first + 1).toNat = first.toNat + 1 := toNat_add_one (by omega)
    rw [idsFrom_succ, List.pairwise_cons]
    refine ⟨?_, ih (by omega)⟩
    intro id hid
    rw [mem_idsFrom (by omega), hnext] at hid
    exact UInt32.lt_iff_toNat_lt.2 (by omega)

/-- A run that comes round meets the id 0. -/
theorem add_le_of_zero_not_mem_idsFrom {first : UInt32} {count : Nat} (h : 0 ∉ idsFrom first count) :
    first.toNat + count ≤ 2 ^ 32 := by
  induction count generalizing first with
  | zero => exact Nat.le_of_lt first.toNat_lt
  | succ count ih =>
    rw [idsFrom_succ, List.mem_cons, not_or] at h
    rcases Nat.eq_zero_or_pos count with rfl | hpos
    · exact first.toNat_lt
    · obtain ⟨rest, rfl⟩ := Nat.exists_eq_add_one.2 hpos
      have hlt : first.toNat + 1 < 2 ^ 32 := by
        by_contra hlast
        have hround : first + 1 = 0 := by
          have := first.toNat_lt
          rw [← UInt32.toNat_inj, UInt32.toNat_add, UInt32.toNat_one, UInt32.toNat_zero]
          omega
        rw [idsFrom_succ, hround] at h
        exact h.2 List.mem_cons_self
      have hrest := ih h.2
      rw [toNat_add_one hlt] at hrest
      omega

/-- No id stands twice in a run that does not come round. -/
theorem nodup_idsFrom (first : UInt32) {count : Nat} (h : count ≤ 2 ^ 32) :
    (idsFrom first count).Nodup := by
  refine List.Nodup.map_on ?_ List.nodup_range
  intro i hi j hj hij
  have hofNat : UInt32.ofNat i = UInt32.ofNat j := UInt32.add_right_inj first |>.1 hij
  have hnat := congrArg UInt32.toNat hofNat
  rw [List.mem_range] at hi hj
  rwa [UInt32.toNat_ofNat', UInt32.toNat_ofNat', Nat.mod_eq_of_lt (by omega),
    Nat.mod_eq_of_lt (by omega)] at hnat

/-! ## Taking -/

theorem quantaFor_zero {q : Nat} (hq : 0 < q) : quantaFor q 0 = 0 := by
  rw [quantaFor, pieceCount_zero hq, Nat.zero_mod]

theorem ne_zero_of_quantaFor_ne_zero {q length : Nat} (hq : 0 < q) (h : quantaFor q length ≠ 0) :
    length ≠ 0 := by
  rintro rfl
  exact h (quantaFor_zero hq)

/-- As long as they fit 32 bits, the quanta of a key are the pieces it is made of. -/
theorem quantaFor_eq {q length : Nat} (h : pieceCount q length < 2 ^ 32) :
    quantaFor q length = pieceCount q length := Nat.mod_eq_of_lt h

theorem quantaFor_lt (q length : Nat) : quantaFor q length < 2 ^ 32 := Nat.mod_lt _ (by decide)

theorem missing?_eq_none_iff {s : KeyStock} {first : UInt32} {count : Nat} :
    s.missing? first count = none ↔ ∀ id ∈ idsFrom first count, id ∈ s.held := by
  induction count generalizing first with
  | zero => simp [missing?]
  | succ count ih =>
    rw [missing?, idsFrom_succ, List.forall_mem_cons, ← ih, ← Std.TreeMap.contains_iff_mem]
    cases s.held.contains first <;> simp

theorem getElem?_foldl_erase (held : Std.TreeMap UInt32 Key) (ids : List UInt32) (id : UInt32) :
    (ids.foldl (·.erase ·) held)[id]? = if id ∈ ids then none else held[id]? := by
  induction ids generalizing held with
  | nil => simp
  | cons first rest ih =>
    rw [List.foldl_cons, ih, Std.TreeMap.getElem?_erase]
    by_cases hrest : id ∈ rest
    · simp [hrest]
    · by_cases hfirst : id = first
      · simp [hfirst]
      · have hcmp : compare first id ≠ .eq := by simpa using Ne.symm hfirst
        simp [hrest, hfirst, hcmp]

/-- A key is taken exactly if all its quanta are held, and then it is cut from their bytes. -/
theorem take_eq_ok_iff {s : KeyStock} {q : Nat} {first : UInt32} {length : Nat} {r : Key × KeyStock} :
    s.take q first length = .ok r ↔
      (∀ id ∈ idsFrom first (quantaFor q length), id ∈ s.held)
        ∧ r = (⟨((idsFrom first (quantaFor q length)).flatMap fun id =>
              (s.held.getD id .empty).bytes).take length⟩,
            { s with held := (idsFrom first (quantaFor q length)).foldl (·.erase ·) s.held }) := by
  rw [take, ← missing?_eq_none_iff]
  constructor
  · intro h
    split at h
    · cases h
    · next hnone => exact ⟨hnone, (Except.ok.inj h).symm⟩
  · rintro ⟨hnone, rfl⟩
    simp [hnone]

/-- What is missing is the first id of the run that is not held. -/
theorem missing?_eq_some_iff {s : KeyStock} {first id : UInt32} {count : Nat} :
    s.missing? first count = some id ↔ ∃ k < count,
      first + UInt32.ofNat k = id ∧ id ∉ s.held ∧ ∀ i ∈ idsFrom first k, i ∈ s.held := by
  induction count generalizing first with
  | zero => simp [missing?]
  | succ count ih =>
    rw [missing?]
    by_cases hfirst : first ∈ s.held
    · rw [if_pos (Std.TreeMap.contains_iff_mem.2 hfirst), ih]
      constructor
      · rintro ⟨k, hk, hid, hgone, hheld⟩
        refine ⟨k + 1, Nat.succ_lt_succ hk, by rw [add_ofNat_succ, hid], hgone, ?_⟩
        rw [idsFrom_succ, List.forall_mem_cons]
        exact ⟨hfirst, hheld⟩
      · rintro ⟨k, hk, hid, hgone, hheld⟩
        cases k with
        | zero =>
          obtain rfl : first = id := (UInt32.add_zero first).symm.trans hid
          exact absurd hfirst hgone
        | succ k =>
          rw [idsFrom_succ, List.forall_mem_cons] at hheld
          exact ⟨k, Nat.lt_of_succ_lt_succ hk, by rw [← add_ofNat_succ, hid], hgone, hheld.2⟩
    · rw [if_neg fun hcontains => hfirst (Std.TreeMap.contains_iff_mem.1 hcontains)]
      constructor
      · intro hid
        obtain rfl := Option.some.inj hid
        exact ⟨0, Nat.succ_pos count, UInt32.add_zero first, hfirst, by simp⟩
      · rintro ⟨k, -, hid, -, hheld⟩
        cases k with
        | zero => exact congrArg some ((UInt32.add_zero first).symm.trans hid)
        | succ k =>
          rw [idsFrom_succ, List.forall_mem_cons] at hheld
          exact absurd hheld.1 hfirst

/-! ## What is held -/

/-- Quantum number `i` of a stream, counted from 0. -/
def quantumAt (q : Nat) (stream : Bytes) (i : Nat) : Bytes := (stream.drop (i * q)).take q

/-- The stock holds, of the quanta 1, …, `n` of the stream, those that were not used. -/
structure HoldsUpTo (q : Nat) (stream : Bytes) (used : List UInt32) (n : Nat) (s : KeyStock) :
    Prop where
  nextId_eq : s.nextId.toNat = n + 1
  held_iff : ∀ id key, s.held[id]? = some key ↔
    0 < id.toNat ∧ id.toNat ≤ n ∧ id ∉ used ∧ key = ⟨quantumAt q stream (id.toNat - 1)⟩
  used_le : ∀ id ∈ used, 0 < id.toNat ∧ id.toNat ≤ n
  used_nodup : used.Nodup

/-- The stock holds what was delivered with the stream and not used. -/
structure Tracks (q : Nat) (stream : Bytes) (used : List UInt32) (s : KeyStock) : Prop
    extends HoldsUpTo q stream used (stream.length / q) s where
  pending_eq : s.pending = stream.drop (stream.length / q * q)

theorem tracks_empty (q : Nat) : Tracks q [] [] empty where
  nextId_eq := by simp [empty]
  held_iff := by
    intro id key
    simp only [empty, List.length_nil, Nat.zero_div, Std.TreeMap.getElem?_emptyc, reduceCtorEq,
      false_iff]
    omega
  used_le := by simp
  used_nodup := List.nodup_nil
  pending_eq := by simp [empty]

/-! ## Delivery -/

section Delivery

variable {q n : Nat} {stream : Bytes} {used : List UInt32} {s : KeyStock}

/-- Quanta that are complete stay as they are when the stream goes on. -/
theorem quantumAt_append (bytes : Bytes) {i : Nat} (h : (i + 1) * q ≤ stream.length) :
    quantumAt q (stream ++ bytes) i = quantumAt q stream i := by
  have hi : i * q + q ≤ stream.length := by rwa [← Nat.succ_mul]
  rw [quantumAt, quantumAt, List.drop_append_of_le_length (by omega),
    List.take_append_of_le_length (by rw [List.length_drop]; omega)]

/-- What waits and what is new make up the rest of the longer stream. -/
theorem rest_append (q : Nat) (stream bytes : Bytes) :
    stream.drop (stream.length / q * q) ++ bytes
      = (stream ++ bytes).drop (stream.length / q * q) :=
  (List.drop_append_of_le_length (Nat.div_mul_le_self _ _)).symm

/-- The quanta of the longer stream are those of the stream and those of its rest. -/
theorem div_add_div_rest (q : Nat) (stream bytes : Bytes) :
    stream.length / q + (stream.drop (stream.length / q * q) ++ bytes).length / q
      = (stream ++ bytes).length / q := by
  rw [rest_append, List.length_drop, Nat.mul_comm, Nat.sub_mul_div, Nat.add_sub_cancel']
  exact Nat.div_le_div_right (by simp)

theorem HoldsUpTo.append (h : HoldsUpTo q stream used n s) (hn : n * q ≤ stream.length)
    (bytes : Bytes) : HoldsUpTo q (stream ++ bytes) used n s where
  nextId_eq := h.nextId_eq
  held_iff := by
    intro id key
    rw [h.held_iff]
    refine and_congr_right fun hpos => and_congr_right fun hle => ?_
    have hquantum : (id.toNat - 1 + 1) * q ≤ stream.length :=
      Nat.le_trans (Nat.mul_le_mul_right q (by omega)) hn
    rw [quantumAt_append bytes hquantum]
  used_le := h.used_le
  used_nodup := h.used_nodup

/-- The next quantum gets the next id. -/
theorem HoldsUpTo.deliver (h : HoldsUpTo q stream used n s) (hn : n + 1 < 2 ^ 32 - 1) :
    HoldsUpTo q stream used (n + 1) (s.deliver (quantumAt q stream n)) where
  nextId_eq := by
    have hsucc : (s.nextId + 1).toNat = n + 2 := by
      have hnext := h.nextId_eq
      rw [toNat_add_one (by omega), hnext]
    have hne : s.nextId + 1 ≠ 0 := by
      intro hzero
      rw [hzero] at hsucc
      cases hsucc
    simp only [KeyStock.deliver, idAfter, if_neg hne, hsucc]
  held_iff := by
    intro id key
    simp only [KeyStock.deliver, Std.TreeMap.getElem?_insert]
    by_cases hid : s.nextId = id
    · have hn : id.toNat = n + 1 := by rw [← hid, h.nextId_eq]
      have hfresh : id ∉ used := by
        intro hmem
        have := (h.used_le id hmem).2
        omega
      simp [hid, hn, hfresh, eq_comm]
    · -- the other quanta stay where they are
      have hcmp : compare s.nextId id ≠ .eq := by simpa using hid
      have hne : id.toNat ≠ n + 1 := by
        rw [← h.nextId_eq]
        exact fun heq => hid (UInt32.toNat_inj.1 heq.symm)
      rw [if_neg hcmp, h.held_iff]
      refine and_congr_right fun _ => and_congr_left fun _ => ?_
      omega
  used_le := by
    intro id hmem
    have := h.used_le id hmem
    omega
  used_nodup := h.used_nodup

theorem mem_held_deliver {id : UInt32} (h : id ∈ s.held) (quantum : Bytes) :
    id ∈ (s.deliver quantum).held := Std.TreeMap.mem_insert.2 (Or.inr h)

/-- Quanta that were delivered stay while more of them are delivered. -/
theorem mem_held_deliverAll_of_le {id : UInt32} {count more : Nat} (hle : count ≤ more)
    (h : id ∈ (deliverAll q count s stream).held) : id ∈ (deliverAll q more s stream).held := by
  induction more generalizing count s stream with
  | zero =>
    obtain rfl := Nat.le_zero.1 hle
    exact h
  | succ more ih =>
    cases count with
    | zero => exact ih (Nat.zero_le more) (mem_held_deliver h (stream.take q))
    | succ count => exact ih (Nat.le_of_succ_le_succ hle) h

/-- A delivery takes nothing away, even when the ids come round. -/
theorem mem_held_push {id : UInt32} (h : id ∈ s.held) (q : Nat) (bytes : Bytes) :
    id ∈ (s.push q bytes).held :=
  mem_held_deliverAll_of_le (s := s) (Nat.zero_le ((s.pending ++ bytes).length / q)) h

/-- Quanta cut off the rest of the stream get the ids that follow. -/
theorem HoldsUpTo.deliverAll (count : Nat) (h : HoldsUpTo q stream used n s)
    (hn : n + count < 2 ^ 32 - 1) :
    HoldsUpTo q stream used (n + count) (deliverAll q count s (stream.drop (n * q)))
      ∧ (KeyStock.deliverAll q count s (stream.drop (n * q))).pending
        = stream.drop ((n + count) * q) := by
  induction count generalizing n s with
  | zero => exact ⟨⟨h.nextId_eq, h.held_iff, h.used_le, h.used_nodup⟩, rfl⟩
  | succ count ih =>
    have hrest : (stream.drop (n * q)).drop q = stream.drop ((n + 1) * q) := by
      rw [List.drop_drop, Nat.succ_mul]
    rw [KeyStock.deliverAll, hrest, ← Nat.succ_add_eq_add_succ]
    exact ih (h.deliver (by omega)) (by omega)

/-- Delivering bytes continues the stream. -/
theorem Tracks.push (h : Tracks q stream used s) (bytes : Bytes)
    (hbound : (stream ++ bytes).length / q < 2 ^ 32 - 1) :
    Tracks q (stream ++ bytes) used (s.push q bytes) := by
  have hcount := div_add_div_rest q stream bytes
  have hpending := rest_append q stream bytes
  rw [← h.pending_eq] at hcount hpending
  obtain ⟨hholds, hrest⟩ := (h.append (Nat.div_mul_le_self _ _) bytes).deliverAll
    ((s.pending ++ bytes).length / q) (by rw [hcount]; exact hbound)
  rw [hcount, ← hpending] at hholds hrest
  exact ⟨hholds, hrest⟩

end Delivery

/-! ## Use -/

section Use

variable {q n : Nat} {stream : Bytes} {used : List UInt32} {s s' : KeyStock} {first : UInt32}
  {count length : Nat} {key : Key}

theorem HoldsUpTo.mem_held_iff (h : HoldsUpTo q stream used n s) {id : UInt32} :
    id ∈ s.held ↔ 0 < id.toNat ∧ id.toNat ≤ n ∧ id ∉ used := by
  rw [Std.TreeMap.mem_iff_isSome_getElem?, Option.isSome_iff_exists]
  simp only [h.held_iff]
  constructor
  · rintro ⟨key, hpos, hle, hfresh, _⟩
    exact ⟨hpos, hle, hfresh⟩
  · rintro ⟨hpos, hle, hfresh⟩
    exact ⟨_, hpos, hle, hfresh, rfl⟩

/-- A run of ids that were delivered ends at the last of them. -/
theorem add_le_of_idsFrom_le (hn : n < 2 ^ 32 - 1) (hcount : 0 < count)
    (h : ∀ id ∈ idsFrom first count, id.toNat ≤ n) : first.toNat + count ≤ n + 1 := by
  induction count generalizing first with
  | zero => cases hcount
  | succ count ih =>
    rw [idsFrom_succ, List.forall_mem_cons] at h
    rcases Nat.eq_zero_or_pos count with rfl | hpos
    · omega
    · have hnext : (first + 1).toNat = first.toNat + 1 := toNat_add_one (by omega)
      have := ih hpos h.2
      omega

/-- The quanta of a run are a piece of the stream. -/
theorem flatMap_quantumAt (hpos : 0 < first.toNat) (h : first.toNat + count < 2 ^ 32) :
    ((idsFrom first count).flatMap fun id => quantumAt q stream (id.toNat - 1))
      = (stream.drop ((first.toNat - 1) * q)).take (count * q) := by
  induction count generalizing first with
  | zero => simp
  | succ count ih =>
    have hnext : (first + 1).toNat = first.toNat + 1 := toNat_add_one (by omega)
    have hdrop : (stream.drop ((first.toNat - 1) * q)).drop q
        = stream.drop ((first.toNat + 1 - 1) * q) := by
      rw [List.drop_drop, ← Nat.succ_mul]
      congr 2
      omega
    rw [idsFrom_succ, List.flatMap_cons, ih (by omega) (by omega), hnext, Nat.succ_mul,
      Nat.add_comm (count * q), List.take_add, hdrop, quantumAt]

/-- The key of a stream that starts with the quantum `first`. -/
def keyAt (q : Nat) (stream : Bytes) (first : UInt32) (length : Nat) : Key :=
  ⟨(stream.drop ((first.toNat - 1) * q)).take length⟩

/-- A key that a stream has in full is the same however the stream goes on. -/
theorem keyAt_append {q : Nat} {stream : Bytes} {first : UInt32} {length : Nat}
    (h : (keyAt q stream first length).length = length) (bytes : Bytes) :
    keyAt q (stream ++ bytes) first length = keyAt q stream first length := by
  rcases Nat.eq_zero_or_pos length with rfl | hpos
  · simp [keyAt]
  · have hroom : (first.toNat - 1) * q + length ≤ stream.length := by
      simp only [keyAt, Key.length, List.length_take, List.length_drop] at h
      omega
    rw [keyAt, keyAt, List.drop_append_of_le_length (by omega),
      List.take_append_of_le_length (by rw [List.length_drop]; omega)]

/-- The quanta of a key that is taken were delivered and not used. -/
theorem HoldsUpTo.fresh_of_take (h : HoldsUpTo q stream used n s)
    (ht : s.take q first length = .ok (key, s')) :
    ∀ id ∈ idsFrom first (quantaFor q length), 0 < id.toNat ∧ id.toNat ≤ n ∧ id ∉ used := by
  intro id hid
  exact h.mem_held_iff.1 ((take_eq_ok_iff.1 ht).1 id hid)

/-- Taking a key uses its quanta. -/
theorem Tracks.take (h : Tracks q stream used s) (ht : s.take q first length = .ok (key, s')) :
    Tracks q stream (used ++ idsFrom first (quantaFor q length)) s' := by
  have hfresh := h.fresh_of_take ht
  obtain ⟨hheld, heq⟩ := take_eq_ok_iff.1 ht
  obtain ⟨rfl, rfl⟩ := Prod.mk.inj heq
  refine ⟨⟨h.nextId_eq, ?_, ?_, ?_⟩, h.pending_eq⟩
  · intro id key
    rw [getElem?_foldl_erase, List.mem_append]
    by_cases hid : id ∈ idsFrom first (quantaFor q length)
    · simp [hid]
    · simp [hid, h.held_iff]
  · intro id hid
    rcases List.mem_append.1 hid with hold | hnew
    · exact h.used_le id hold
    · exact ⟨(hfresh id hnew).1, (hfresh id hnew).2.1⟩
  · refine h.used_nodup.append (nodup_idsFrom first (Nat.le_of_lt (quantaFor_lt q length))) ?_
    intro id hold hnew
    exact (hfresh id hnew).2.2 hold

theorem take_zero (s : KeyStock) (hq : 0 < q) (first : UInt32) :
    s.take q first 0 = .ok (.empty, s) := by
  rw [take_eq_ok_iff, quantaFor_zero hq]
  exact ⟨by simp, rfl⟩

/-- A key that is taken is the piece of the stream that its id stands for, in full. -/
theorem Tracks.key_of_take (h : Tracks q stream used s) (hq : 0 < q)
    (hbound : stream.length / q < 2 ^ 32 - 1) (hcount : pieceCount q length < 2 ^ 32)
    (ht : s.take q first length = .ok (key, s')) :
    key = keyAt q stream first length ∧ key.length = length := by
  rcases Nat.eq_zero_or_pos length with rfl | hlength
  · rw [take_zero s hq] at ht
    cases ht
    exact ⟨rfl, rfl⟩
  have hpieces := pieceCount_pos hq hlength
  have hfresh := h.fresh_of_take ht
  obtain ⟨hheld, heq⟩ := take_eq_ok_iff.1 ht
  obtain ⟨rfl, -⟩ := Prod.mk.inj heq
  rw [quantaFor_eq hcount] at hfresh ⊢
  -- ids that were all delivered do not come round, so they stand for quanta in a row
  have hend : first.toNat + pieceCount q length ≤ stream.length / q + 1 :=
    add_le_of_idsFrom_le hbound hpieces fun id hid => (hfresh id hid).2.1
  have hfirst : 0 < first.toNat := by
    obtain ⟨count, hcount⟩ := Nat.exists_eq_add_one.2 hpieces
    rw [hcount, idsFrom_succ] at hfresh
    exact (hfresh first List.mem_cons_self).1
  have hbytes : ((idsFrom first (pieceCount q length)).flatMap fun id =>
        (s.held.getD id .empty).bytes)
      = (stream.drop ((first.toNat - 1) * q)).take (pieceCount q length * q) := by
    rw [← flatMap_quantumAt hfirst (by omega)]
    refine List.flatMap_congr fun id hid => ?_
    obtain ⟨hpos, hle, hunused⟩ := hfresh id hid
    rw [Std.TreeMap.getD_eq_getD_getElem?, (h.held_iff id _).2 ⟨hpos, hle, hunused, rfl⟩,
      Option.getD_some]
  have henough := le_pieceCount_mul hq length
  have hkey : (⟨((idsFrom first (pieceCount q length)).flatMap fun id =>
        (s.held.getD id .empty).bytes).take length⟩ : Key) = keyAt q stream first length := by
    rw [hbytes, List.take_take, Nat.min_eq_left henough, keyAt]
  -- the stream has all the quanta of the key, so it has the whole key
  have hroom : (first.toNat - 1) * q + pieceCount q length * q ≤ stream.length := by
    rw [← Nat.add_mul]
    exact Nat.le_trans (Nat.mul_le_mul_right q (by omega)) (Nat.div_mul_le_self stream.length q)
  refine ⟨hkey, ?_⟩
  rw [hkey, Key.length, keyAt, List.length_take, List.length_drop]
  omega

end Use

/-! ## Reserving -/

/-- A run is reserved if all of it is held and none of it was reserved before. -/
theorem isSome_reserve? (s : KeyStock) (first : UInt32) {count : Nat} (hcount : count ≤ 2 ^ 32)
    (taken : Std.TreeSet UInt32) :
    (s.reserve? first count taken).isSome = true ↔
      ∀ id ∈ idsFrom first count, id ∈ s.held ∧ id ∉ taken := by
  induction count generalizing first taken with
  | zero => simp [reserve?]
  | succ count ih =>
    have hnodup := nodup_idsFrom first hcount
    rw [idsFrom_succ, List.nodup_cons] at hnodup
    rw [reserve?, idsFrom_succ, List.forall_mem_cons, ← Std.TreeMap.contains_iff_mem,
      ← Std.TreeSet.contains_iff_mem (k := first)]
    by_cases hfirst : s.held.contains first = true ∧ taken.contains first = false
    · have hrest : ∀ id ∈ idsFrom (first + 1) count, (id ∉ taken.insert first ↔ id ∉ taken) := by
        intro id hid
        have hne : first ≠ id := fun heq => hnodup.1 (heq ▸ hid)
        simp [Std.TreeSet.mem_insert, hne]
      simp only [hfirst.1, hfirst.2, Bool.not_false, Bool.and_self, if_true, ih (first + 1) (by omega)]
      simp only [Bool.false_eq_true, not_false_eq_true, and_self, true_and]
      exact forall₂_congr fun id hid => and_congr_right fun _ => hrest id hid
    · have hcond : (s.held.contains first && !taken.contains first) = false := by
        cases hheld : s.held.contains first <;> cases htaken : taken.contains first <;> simp_all
      simp only [hcond, Bool.false_eq_true, if_false, Option.isSome_none, false_iff]
      intro hall
      exact hfirst ⟨hall.1.1, Bool.eq_false_iff.2 hall.1.2⟩

/-- What is reserved afterwards. -/
theorem mem_of_reserve?_eq_some {s : KeyStock} {first : UInt32} {count : Nat}
    {taken taken' : Std.TreeSet UInt32} (h : s.reserve? first count taken = some taken')
    (id : UInt32) : id ∈ taken' ↔ id ∈ taken ∨ id ∈ idsFrom first count := by
  induction count generalizing first taken with
  | zero =>
    cases h
    simp
  | succ count ih =>
    rw [reserve?] at h
    split at h
    · rw [ih h, idsFrom_succ, List.mem_cons, Std.TreeSet.mem_insert, Std.compare_eq_iff_eq,
        eq_comm (a := first)]
      tauto
    · cases h

end KeyStock

end OneTimeChannel

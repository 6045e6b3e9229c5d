/-
  What a refusal says about later.

  A key is refused because of the first quantum of its run that is not held.  Up to the last id that was
  delivered, a quantum is not held because it was used, or because its id is 0, and then it is never held
  again: the key is gone (`KeyError.unknown`).  Beyond the last id it was not delivered yet, and neither
  were those after it in the run: the key can be waited for (`KeyError.exhausted`).  So the first gap
  decides about all of the run, whatever pattern of held and used quanta it meets.

  What carries the first half is that used quanta stay used (`tracks_useAll`), and what carries the second
  is that a delivery takes nothing away (`KeyStock.mem_held_push`) and brings the ids that follow.

  Keys to send with are taken from the front of a row of ids, which has no gap; they are only waited for.
-/
import OneTimeChannel.Proofs.Keys.Addresses
import OneTimeChannel.Proofs.Keys.Requests

namespace OneTimeChannel

open KeyStock (Tracks idsFrom quantaFor)

/-! ## Gaps -/

namespace KeyStock

variable {q n : Nat} {stream : Bytes} {used : List UInt32} {s : KeyStock} {first id : UInt32}
  {length : Nat} {e : KeyError}

/-- Quanta whose ids all stay below the highest one are fewer than 2 ^ 32, and are counted right. -/
theorem quantaFor_eq_of_idsFrom_lt (h : ∀ i ∈ idsFrom first (pieceCount q length), i.toNat < 2 ^ 32 - 1) :
    quantaFor q length = pieceCount q length := by
  rcases Nat.eq_zero_or_pos (pieceCount q length) with hzero | hpos
  · rw [quantaFor, hzero, Nat.zero_mod]
  · have hend : first.toNat + pieceCount q length ≤ 2 ^ 32 - 2 + 1 :=
      add_le_of_idsFrom_le (by decide) hpos fun i hi => Nat.le_of_lt_succ (h i hi)
    exact quantaFor_eq (by omega)

theorem take_eq_error_iff : s.take q first length = .error e ↔
    ∃ id, s.missing? first (quantaFor q length) = some id ∧ s.refusal q id length = e := by
  rw [take]
  cases hmissing : s.missing? first (quantaFor q length) with
  | none => simp
  | some id => simp

/-- Ids up to the last one delivered are refused for good, the others are waited for. -/
theorem HoldsUpTo.refusal_eq (h : HoldsUpTo q stream used n s) (id : UInt32) (length : Nat) :
    s.refusal q id length
      = if id.toNat ≤ n then .unknown id else .exhausted length (s.available q) := by
  have hnext := h.nextId_eq
  have hcond : ((s.held.maxKey?).any (id ≤ ·) ∨ id < s.nextId) ↔ id.toNat ≤ n := by
    rw [UInt32.lt_iff_toNat_lt, hnext, Option.any_eq_true]
    constructor
    · rintro (⟨last, hlast, hle⟩ | hlt)
      · have hheld := (Std.TreeMap.maxKey?_eq_some_iff_mem_and_forall.1 hlast).1
        have hlast := (h.mem_held_iff.1 hheld).2.1
        have hle := UInt32.le_iff_toNat_le.1 (of_decide_eq_true hle)
        omega
      · omega
    · intro hle
      exact Or.inr (by omega)
  rw [refusal, if_congr hcond rfl rfl]

/-- What is not held of the ids that were delivered was used. -/
theorem HoldsUpTo.gone (h : HoldsUpTo q stream used n s) (hle : id.toNat ≤ n) (hgone : id ∉ s.held) :
    id.toNat = 0 ∨ id ∈ used := by
  rw [h.mem_held_iff] at hgone
  by_contra hnot
  rw [not_or] at hnot
  exact hgone ⟨Nat.pos_of_ne_zero hnot.1, hle, hnot.2⟩

/-- A delivery that reaches up to the quantum `last` brings all quanta up to it that were not there. -/
theorem Tracks.mem_held_push_of_le (h : Tracks q stream used s) (hq : 0 < q) {last : Nat}
    (hlast : last < 2 ^ 32 - 1) {bytes : Bytes} (henough : last * q ≤ (stream ++ bytes).length)
    (hnew : stream.length / q < id.toNat) (hid : id.toNat ≤ last) : id ∈ (s.push q bytes).held := by
  have hcount := div_add_div_rest q stream bytes
  have hrest := rest_append q stream bytes
  rw [← h.pending_eq] at hcount hrest
  have hreach : last ≤ (stream ++ bytes).length / q := (Nat.le_div_iff_mul_le hq).2 henough
  obtain ⟨more, hmore⟩ : ∃ more, last = stream.length / q + more :=
    Nat.exists_eq_add_of_le (Nat.le_trans (Nat.le_of_lt hnew) hid)
  -- the quanta up to the last one that is asked for are a part of those that come
  obtain ⟨hholds, -⟩ :=
    (h.append (Nat.div_mul_le_self _ _) bytes).deliverAll more (by rwa [← hmore])
  rw [← hrest, ← hmore] at hholds
  have hheld : id ∈ (KeyStock.deliverAll q more s (s.pending ++ bytes)).held := by
    refine hholds.mem_held_iff.2 ⟨Nat.zero_lt_of_lt hnew, hid, fun hused => ?_⟩
    exact Nat.not_le_of_lt hnew (h.used_le id hused).2
  exact mem_held_deliverAll_of_le (by omega) hheld

end KeyStock

/-! ## Refusals -/

namespace KeyBuffer

variable {q length : Nat} {stream sent received : Bytes} {used : List UInt32} {b b' : KeyBuffer}
  {id : UInt32} {e : KeyError}

theorem fetchIncoming_fst_eq_error_iff : (KeySource.fetchIncoming b id length).1 = .error e ↔
    0 < length ∧ ∃ i, b.incoming.missing? id (quantaFor b.quantum length) = some i
      ∧ b.incoming.refusal b.quantum i length = e := by
  have hfetch : KeySource.fetchIncoming b id length
      = KeySource.outcome b (b.fetchIncoming id length) := rfl
  rw [hfetch, KeyBuffer.fetchIncoming, ← KeyStock.take_eq_error_iff]
  rcases Nat.eq_zero_or_pos length with rfl | hpos
  · simp
  · rw [if_neg hpos.ne']
    cases htake : b.incoming.take b.quantum id length with
    | ok r => simp
    | error e' => simp [hpos]

/-- Where a key is refused, and why. -/
theorem Receives.fetchIncoming_fst_eq_error_iff (h : b.Receives stream used) :
    (KeySource.fetchIncoming b id length).1 = .error e ↔
      0 < length ∧ ∃ i, b.incoming.missing? id (quantaFor b.quantum length) = some i
        ∧ (if i.toNat ≤ stream.length / b.quantum then .unknown i
          else .exhausted length (b.incoming.available b.quantum)) = e := by
  rw [KeyBuffer.fetchIncoming_fst_eq_error_iff]
  simp only [KeyStock.HoldsUpTo.refusal_eq h.toHoldsUpTo]

/-- A key that is waited for comes with the last of its quanta, and not before. -/
theorem Receives.isOk_iff_of_exhausted {needed available : Nat} (h : b.Receives stream used)
    (hbelow : ∀ i ∈ idsFrom id (quantaFor b.quantum length), i.toNat < 2 ^ 32 - 1)
    (hfail : (KeySource.fetchIncoming b id length).1 = .error (.exhausted needed available)) :
    ∃ more, (stream.length + more) / b.quantum < 2 ^ 32 - 1
      ∧ ∀ bytes, (KeySource.fetchIncoming (b.pushIncoming bytes) id length).1.isOk = true
        ↔ more ≤ bytes.length := by
  obtain ⟨-, i, hmissing, hwhy⟩ := h.fetchIncoming_fst_eq_error_iff.1 hfail
  obtain ⟨k, hk, hi, -, hbefore⟩ := KeyStock.missing?_eq_some_iff.1 hmissing
  have hgap : stream.length / b.quantum < i.toNat := by
    by_contra hle
    rw [if_pos (Nat.not_lt.1 hle)] at hwhy
    cases hwhy
  have hend : id.toNat + quantaFor b.quantum length ≤ 2 ^ 32 - 2 + 1 :=
    KeyStock.add_le_of_idsFrom_le (by decide) (Nat.lt_of_le_of_lt (Nat.zero_le k) hk) fun j hj =>
      Nat.le_of_lt_succ (hbelow j hj)
  have hik : i.toNat = id.toNat + k := by rw [← hi, KeyStock.toNat_add_ofNat (by omega)]
  -- from the gap on, all of the run lies beyond what was delivered
  have hrun : ∀ j ∈ idsFrom id (quantaFor b.quantum length),
      j ∈ b.incoming.held ∨ stream.length / b.quantum < j.toNat := by
    intro j hj
    obtain ⟨m, hm, rfl⟩ := KeyStock.mem_idsFrom_iff_exists.1 hj
    rcases Nat.lt_or_ge m k with hlt | hge
    · exact Or.inl (hbefore _ (KeyStock.mem_idsFrom_iff_exists.2 ⟨m, hlt, rfl⟩))
    · rw [KeyStock.toNat_add_ofNat (by omega)]
      exact Or.inr (by omega)
  obtain ⟨last, hlast⟩ : ∃ last, last + 1 = id.toNat + quantaFor b.quantum length :=
    ⟨id.toNat + quantaFor b.quantum length - 1, by omega⟩
  have hshort : stream.length < last * b.quantum :=
    (Nat.div_lt_iff_lt_mul b.quantum_pos).1 (by omega)
  refine ⟨last * b.quantum - stream.length, ?_, fun bytes => ?_⟩
  · rw [Nat.add_sub_cancel' hshort.le, Nat.mul_div_cancel last b.quantum_pos]
    omega
  · have hheld : (KeySource.fetchIncoming (b.pushIncoming bytes) id length).1.isOk = true
        ↔ ∀ j ∈ idsFrom id (quantaFor b.quantum length),
          j ∈ (b.incoming.push b.quantum bytes).held := isOk_fetchIncoming_iff
    rw [hheld]
    constructor
    · intro hall
      by_contra hfew
      have hless : (stream ++ bytes).length / b.quantum < last := by
        rw [Nat.div_lt_iff_lt_mul b.quantum_pos, List.length_append]
        omega
      have hpush := KeyStock.Tracks.push h bytes (by omega)
      have hofNat : (UInt32.ofNat last).toNat = last :=
        UInt32.toNat_ofNat_of_lt' (show last < 2 ^ 32 by omega)
      have hmem : UInt32.ofNat last ∈ idsFrom id (quantaFor b.quantum length) := by
        rw [KeyStock.mem_idsFrom (by omega), hofNat]
        omega
      have hle := (hpush.mem_held_iff.1 (hall _ hmem)).2.1
      omega
    · intro henough j hj
      rcases hrun j hj with hnow | hnew
      · exact KeyStock.mem_held_push hnow b.quantum bytes
      · rw [KeyStock.mem_idsFrom (by omega)] at hj
        have hreach : last * b.quantum ≤ (stream ++ bytes).length := by
          rw [List.length_append]
          omega
        exact KeyStock.Tracks.mem_held_push_of_le h b.quantum_pos (by omega) hreach hnew (by omega)

/-- A key that is gone stays gone when more is delivered and used. -/
theorem Receives.unknown_of_unknown {more : List UInt32} {stream' : Bytes} {i : UInt32}
    (h : b.Receives stream used) (hquantum : b'.quantum = b.quantum)
    (hlonger : stream.length ≤ stream'.length) (h' : b'.Receives stream' (used ++ more))
    (hfail : (KeySource.fetchIncoming b id length).1 = .error (.unknown i)) :
    ∃ j, (KeySource.fetchIncoming b' id length).1 = .error (.unknown j) := by
  obtain ⟨hpos, i, hmissing, hwhy⟩ := h.fetchIncoming_fst_eq_error_iff.1 hfail
  obtain ⟨k, hk, hi, hgone, hbefore⟩ := KeyStock.missing?_eq_some_iff.1 hmissing
  have hle : i.toNat ≤ stream.length / b.quantum := by
    by_contra hlt
    rw [if_neg hlt] at hwhy
    cases hwhy
  have hlater : stream.length / b.quantum ≤ stream'.length / b'.quantum := by
    rw [hquantum]
    exact Nat.div_le_div_right hlonger
  have hstill : i ∉ b'.incoming.held := by
    rw [h'.mem_held_iff, List.mem_append]
    rcases KeyStock.HoldsUpTo.gone h.toHoldsUpTo hle hgone with hzero | hused
    · omega
    · exact fun hheld => hheld.2.2 (Or.inl hused)
  cases hmissing' : b'.incoming.missing? id (quantaFor b'.quantum length) with
  | none =>
    rw [hquantum] at hmissing'
    have hall := KeyStock.missing?_eq_none_iff.1 hmissing'
    exact absurd (hall i (KeyStock.mem_idsFrom_iff_exists.2 ⟨k, hk, hi⟩)) hstill
  | some j =>
    obtain ⟨k', -, hj, -, hbefore'⟩ := KeyStock.missing?_eq_some_iff.1 hmissing'
    -- the gap is where it was, or before it, at a quantum that was used in the meantime
    have hjle : j.toNat ≤ stream.length / b.quantum := by
      rcases Nat.lt_trichotomy k' k with hlt | rfl | hgt
      · have hheld := hbefore j (KeyStock.mem_idsFrom_iff_exists.2 ⟨k', hlt, hj⟩)
        exact (h.mem_held_iff.1 hheld).2.1
      · rwa [← hj, hi]
      · exact absurd (hbefore' i (KeyStock.mem_idsFrom_iff_exists.2 ⟨k, hgt, hi⟩)) hstill
    refine ⟨j, h'.fetchIncoming_fst_eq_error_iff.2 ⟨hpos, j, hmissing', ?_⟩⟩
    rw [if_pos (Nat.le_trans hjle hlater)]

/-- Keys to send with are never gone. -/
theorem Sends.fetchOutgoing_ne_unknown {n : Nat} (h : b.Sends stream n)
    (hbound : stream.length / b.quantum < 2 ^ 32 - 1) (length : Nat) (i : UInt32) :
    (KeySource.fetchOutgoing b length).1 ≠ .error (.unknown i) := by
  intro hfail
  have hfetch : KeySource.fetchOutgoing b length = KeySource.outcome b (b.fetchOutgoing length) := rfl
  rw [hfetch, KeyBuffer.fetchOutgoing] at hfail
  split at hfail
  · cases hfail
  split at hfail
  · cases hfail
  next first hfirst =>
  split at hfail
  · cases hfail
  next e htake =>
  obtain ⟨j, hmissing, hwhy⟩ := KeyStock.take_eq_error_iff.1 htake
  obtain ⟨k, -, hj, hgone, hbefore⟩ := KeyStock.missing?_eq_some_iff.1 hmissing
  have hnext := h.toNat_of_minKey?_eq_some hbound hfirst
  obtain rfl : e = .unknown i := Except.error.inj hfail
  have hle : j.toNat ≤ stream.length / b.quantum := by
    by_contra hlt
    rw [KeyStock.HoldsUpTo.refusal_eq h.toHoldsUpTo, if_neg hlt] at hwhy
    cases hwhy
  -- the run starts with the first quantum that is left, and has no gap before the last one
  have hn := h.le hbound
  have hroom : first.toNat + k < 2 ^ 32 := by
    rcases Nat.eq_zero_or_pos k with rfl | hpos
    · exact first.toNat_lt
    · have hend := KeyStock.add_le_of_idsFrom_le hbound hpos fun i hi =>
        (h.mem_held_iff.1 (hbefore i hi)).2.1
      omega
  have hjk : j.toNat = n + 1 + k := by rw [← hj, KeyStock.toNat_add_ofNat hroom, hnext]
  apply hgone
  rw [h.mem_held_iff, mem_idsFrom_one (by omega)]
  omega

/-- Refusals tell what will be, in a buffer that was filled and used in any way, as long as the ids do not
    come round.  A key to receive with that is waited for, of ids that can still come, is there as soon as
    enough bytes were delivered, however they are cut and however many more there are.  One that is gone is
    gone after every later run as well.  And a key to send with is never gone. -/
theorem refusals_foretell (h : Reached q sent received b) (hsent : sent.length / q < 2 ^ 32 - 1)
    (hreceived : received.length / q < 2 ^ 32 - 1) (length : Nat) :
    (∀ id, (∀ i ∈ idsFrom id (pieceCount q length), i.toNat < 2 ^ 32 - 1) → ∀ needed available,
        (KeySource.fetchIncoming b id length).1 = .error (.exhausted needed available) →
        ∃ more, (received.length + more) / q < 2 ^ 32 - 1
          ∧ ∀ bytes, (KeySource.fetchIncoming (b.pushIncoming bytes) id length).1.isOk = true
            ↔ more ≤ bytes.length)
      ∧ (∀ id i, (KeySource.fetchIncoming b id length).1 = .error (.unknown i) → ∀ uses,
        (received ++ KeyUse.delivered .incoming uses).length / q < 2 ^ 32 - 1 →
        ∃ j, (KeySource.fetchIncoming (b.useAll uses) id length).1 = .error (.unknown j))
      ∧ ∀ i, (KeySource.fetchOutgoing b length).1 ≠ .error (.unknown i) := by
  obtain ⟨n, hsends⟩ := h.exists_sends hsent
  obtain ⟨used, hreceives⟩ := h.exists_receives hreceived
  obtain rfl := h.quantum_eq
  refine ⟨?wait, ?gone, hsends.fetchOutgoing_ne_unknown hsent length⟩
  case wait =>
    intro id hbelow needed available hfail
    rw [← KeyStock.quantaFor_eq_of_idsFrom_lt hbelow] at hbelow
    exact hreceives.isOk_iff_of_exhausted hbelow hfail
  case gone =>
    intro id i hfail uses hbound
    have hquantum := quantum_useAll b uses
    obtain ⟨hlater, -⟩ := tracks_useAll (d := .incoming) hreceives uses hbound
    rw [← hquantum] at hlater
    exact hreceives.unknown_of_unknown hquantum (by rw [List.length_append]; omega) hlater hfail

/-- Of four quanta the second was used: a key of the last one and the one after it is waited for, one of
    the first two is gone. -/
theorem refusals_foretell_lackingSecond :
    (∃ more, (16 + more) / 4 < 2 ^ 32 - 1
        ∧ ∀ bytes, (KeySource.fetchIncoming (lackingSecond.pushIncoming bytes) 4 8).1.isOk = true
          ↔ more ≤ bytes.length)
      ∧ ∀ uses : List KeyUse, (16 + (KeyUse.delivered .incoming uses).length) / 4 < 2 ^ 32 - 1 →
        ∃ j, (KeySource.fetchIncoming (lackingSecond.useAll uses) 1 8).1 = .error (.unknown j) := by
  have hreached : Reached 4 [] ([] ++ [1, 2, 3, 4, 5, 6, 7, 8, 9, 10, 11, 12, 13, 14, 15, 16])
      lackingSecond := .fetchIncoming (.pushIncoming (.new rfl) _) 2 3
  have hwait : (KeySource.fetchIncoming lackingSecond 4 8).1 = .error (.exhausted 8 12) := by cbv
  have hgone : (KeySource.fetchIncoming lackingSecond 1 8).1 = .error (.unknown 2) := by cbv
  have hbelow : ∀ i ∈ idsFrom 4 (pieceCount 4 8), i.toNat < 2 ^ 32 - 1 := by
    rw [show idsFrom 4 (pieceCount 4 8) = [4, 5] by cbv, List.forall_mem_cons, List.forall_mem_singleton]
    decide
  obtain ⟨hexhausted, hunknown, -⟩ := refusals_foretell hreached (by decide) (by decide) 8
  refine ⟨hexhausted 4 hbelow 8 12 hwait, fun uses hbound => ?_⟩
  refine hunknown 1 2 hgone uses ?_
  rwa [List.length_append]

end KeyBuffer

end OneTimeChannel

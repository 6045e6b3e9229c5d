/-
  Where a record stands that is read in many calls.

  The caller of a decoder may read once or until the record is complete, in any order and whatever came of
  the calls before (`Reached`).  What was taken from the stream since the decoder was new or cleared is what
  the decoder holds, the bytes of the length and behind them those of the body (`Holds`).  Every single read
  keeps this (`Holds.read`), also one that fails or meets the end of the stream, and so does every run of
  reads.  So nothing is lost, and the next call goes on where the stream stopped.

  The record is complete when all that its length announces was taken (`InOrder.message_eq_some_iff`).  A
  length that is more than the buffer takes is an end as well: the call that finds it out fails
  (`eq_error_of_read`), and every later one does, without a look at the stream (`read_of_oversized`).
-/
import OneTimeChannel.Proofs.Record.Decoder

namespace OneTimeChannel.RecordDecoder

variable {d d' : RecordDecoder} {r r' start : Reader} {buffer contents : Bytes} {n : Nat}

/-! ## What a decoder holds -/

/-- How many bytes were read. -/
def offset (d : RecordDecoder) : Nat := d.head.length + d.body.length

/-- The length of the body that the first bytes of a record announce. -/
def announcedBy (bytes : Bytes) : Nat := LittleEndian.toNat (bytes.take recordHeadSize)

theorem InOrder.take_held (hd : d.InOrder) : (d.head ++ d.body).take recordHeadSize = d.head := by
  rcases Nat.lt_or_eq_of_le hd.head_le with hlt | heq
  · rw [hd.body_eq_nil hlt, List.append_nil, List.take_of_length_le hd.head_le]
  · exact List.take_left' heq

theorem InOrder.drop_held (hd : d.InOrder) : (d.head ++ d.body).drop recordHeadSize = d.body := by
  rcases Nat.lt_or_eq_of_le hd.head_le with hlt | heq
  · rw [hd.body_eq_nil hlt, List.append_nil, List.drop_of_length_le hd.head_le]
  · exact List.drop_left' heq

/-- The bytes of the head, and no others, are those up to the offset. -/
theorem InOrder.take_head (hd : d.InOrder) : d.head.take (min d.offset recordHeadSize) = d.head :=
  List.take_of_length_le (Nat.le_min.2 ⟨Nat.le_add_right _ _, hd.head_le⟩)

/-- The body stands at the front of the buffer. -/
theorem InOrder.take_buffer (hd : d.InOrder) :
    d.buffer.take (d.offset - recordHeadSize) = d.body := by
  rw [buffer, offset]
  rcases Nat.lt_or_eq_of_le hd.head_le with hlt | heq
  · rw [hd.body_eq_nil hlt, List.length_nil, Nat.add_zero,
      Nat.sub_eq_zero_of_le (Nat.le_of_lt hlt), List.take_zero]
  · rw [heq, Nat.add_sub_cancel_left, List.take_left]

/-- The head is complete when so many bytes were read. -/
theorem InOrder.headComplete_iff (hd : d.InOrder) :
    recordHeadSize ≤ d.offset ↔ recordHeadSize ≤ d.head.length := by
  rw [offset]
  rcases Nat.lt_or_eq_of_le hd.head_le with hlt | heq
  · rw [hd.body_eq_nil hlt, List.length_nil, Nat.add_zero]
  · omega

theorem announced?_eq_some_iff :
    d.announced? = some n ↔ recordHeadSize ≤ d.head.length ∧ n = LittleEndian.toNat d.head := by
  rw [announced?, headComplete]
  by_cases hhead : recordHeadSize ≤ d.head.length
  · simp [hhead, eq_comm]
  · simp [hhead]

/-- A record is complete when all that it announces was read. -/
theorem InOrder.message_eq_some_iff (hd : d.InOrder) {m : Bytes} :
    d.message = .ok (some m) ↔
      d.offset = recordHeadSize + LittleEndian.toNat d.head ∧ m = d.body := by
  have hhead := hd.head_le
  rw [message, offset]
  cases hannounced : d.announced? with
  | none =>
    have hlt : d.head.length < recordHeadSize := by
      refine Nat.not_le.1 fun hge => ?_
      rw [announced?_eq_some_iff.2 ⟨hge, rfl⟩] at hannounced
      cases hannounced
    have hbody : d.body.length = 0 := by rw [hd.body_eq_nil hlt, List.length_nil]
    constructor
    · rintro ⟨⟩
    · rintro ⟨hlength, -⟩
      omega
  | some n =>
    obtain ⟨hge, rfl⟩ := announced?_eq_some_iff.1 hannounced
    have hcapacity : d.body.length ≤ d.capacity := Nat.le_add_right _ _
    dsimp only
    constructor
    · intro h
      split at h
      · split at h
        · next hlength =>
          cases h
          exact ⟨by omega, rfl⟩
        · cases h
      · cases h
    · rintro ⟨hlength, rfl⟩
      rw [if_pos (by omega), if_pos (by omega)]

/-- The decoder holds what it took from a stream with these contents, and started with this buffer. -/
structure Holds (buffer contents : Bytes) (d : RecordDecoder) (r : Reader) : Prop where
  inOrder : d.InOrder
  capacity_eq : d.capacity = buffer.length
  pending_eq : d.pending r = contents
  /-- Nothing is read of a body that is too large. -/
  fits : d.body ≠ [] → LittleEndian.toNat d.head ≤ d.capacity
  /-- Behind what was read of the body, the buffer is as it was. -/
  spare_eq : d.spare = buffer.drop d.body.length

theorem holds_ofBuffer (buffer : Bytes) (r : Reader) : Holds buffer r.contents (ofBuffer buffer) r where
  inOrder := inOrder_ofBuffer buffer
  capacity_eq := capacity_ofBuffer buffer
  pending_eq := rfl
  fits h := absurd rfl h
  spare_eq := rfl

theorem Holds.read {res : Except RecordError Progress} (h : Holds buffer contents d r)
    (hread : d.read r = (res, d', r')) : Holds buffer contents d' r' := by
  obtain ⟨hinOrder, hcapacity, hpending⟩ := pending_read h.inOrder hread
  -- what a read puts into the decoder goes to the head or to the body
  have hrest : (d'.body ≠ [] → LittleEndian.toNat d'.head ≤ d'.capacity)
      ∧ d'.spare = buffer.drop d'.body.length := by
    rcases read_cases hread with ⟨e, -, -, rfl, -⟩ | ⟨-, -, rfl, -⟩ | ⟨n, e, -, -, -, rfl⟩
      | ⟨n, bs, hwanted, -, -, rfl⟩
    · exact ⟨h.fits, h.spare_eq⟩
    · exact ⟨h.fits, h.spare_eq⟩
    · exact ⟨h.fits, h.spare_eq⟩
    cases h.inOrder.stage with
    | inHead hhead hbody =>
      rw [accept_of_lt hhead]
      exact ⟨fun hne => absurd hbody hne, h.spare_eq⟩
    | inBody hhead hfits =>
      have haccept := accept_of_le (Nat.le_of_eq hhead.symm) bs
      rw [hcapacity, haccept]
      refine ⟨fun _ => hfits, ?_⟩
      show d.spare.drop bs.length = buffer.drop (d.body ++ bs).length
      rw [h.spare_eq, List.drop_drop, List.length_append]
    | tooLarge hwanted' =>
      rw [hwanted'] at hwanted
      cases hwanted
    | complete hwanted' =>
      rw [hwanted'] at hwanted
      cases hwanted
  exact ⟨hinOrder, hcapacity.trans h.capacity_eq, hpending.trans h.pending_eq, hrest.1, hrest.2⟩

/-! ## Records that are too large -/

section Oversized

variable (hn : d.announced? = some n) (hlarge : d.capacity < n)
include hn hlarge

theorem wanted_of_oversized : d.wanted = .error ⟨n, d.capacity⟩ := by
  rw [wanted, hn]
  exact if_neg (Nat.not_le.2 hlarge)

theorem progress_of_oversized (bytesRead : Nat) :
    d.progress bytesRead = .error (.tooLarge ⟨n, d.capacity⟩) := by
  have hmessage : d.message = .error ⟨n, d.capacity⟩ := by
    rw [message, hn]
    exact if_neg (Nat.not_le.2 hlarge)
  rw [progress, hmessage]

theorem read_of_oversized (r : Reader) :
    d.read r = (.error (.tooLarge ⟨n, d.capacity⟩), d, r) := by
  rw [read, wanted_of_oversized hn hlarge]

theorem readAll_of_oversized (r : Reader) :
    d.readAll r = (.error (.tooLarge ⟨n, d.capacity⟩), d, r) := by
  rw [readAll, read_of_oversized hn hlarge]

end Oversized

section FindingOut

variable (hn : d'.announced? = some n) (hlarge : d'.capacity < n)
include hn hlarge

/-- A read that ends with a length that is too large fails for it, also if it has just been completed. -/
theorem eq_error_of_read {res : Except RecordError Progress} (h : d.read r = (res, d', r')) :
    res = .error (.tooLarge ⟨n, d'.capacity⟩) := by
  have hwanted := wanted_of_oversized hn hlarge
  rcases read_cases h with ⟨e, hwanted', rfl, rfl, -⟩ | ⟨-, rfl, rfl, -⟩ | ⟨k, e, hwanted', -, -, rfl⟩
    | ⟨k, bs, -, -, rfl, -⟩
  · rw [hwanted] at hwanted'
    cases hwanted'
    rfl
  · exact progress_of_oversized hn hlarge 0
  · rw [hwanted] at hwanted'
    cases hwanted'
  · exact progress_of_oversized hn hlarge bs.length

theorem eq_error_of_readAll {res : Except RecordError Bytes} (h : d.readAll r = (res, d', r')) :
    res = .error (.tooLarge ⟨n, d'.capacity⟩) := by
  fun_induction readAll d r with
  | case1 d r k d₁ r₁ hstep m hmessage =>
    cases h
    cases eq_error_of_read hn hlarge hstep
  | case2 d r k d₁ r₁ hstep e hmessage =>
    cases h
    cases eq_error_of_read hn hlarge hstep
  | case3 d r k d₁ r₁ hstep ih => exact ih h
  | case4 d r d₁ r₁ hstep ih => exact ih h
  | case5 d r e d₁ r₁ hne hstep =>
    cases h
    cases eq_error_of_read hn hlarge hstep
    rfl

end FindingOut

/-! ## Many calls -/

/-- What comes about by calls, from a decoder that was new or cleared and had this buffer, and from this
    stream. -/
inductive Reached (buffer : Bytes) (start : Reader) : RecordDecoder → Reader → Prop where
  | ofBuffer : Reached buffer start (ofBuffer buffer) start
  | clear {d : RecordDecoder} (h : d.clear.buffer = buffer) : Reached buffer start d.clear start
  | read {d d' : RecordDecoder} {r r' : Reader} {res : Except RecordError Progress}
    (h : Reached buffer start d r) (hread : d.read r = (res, d', r')) : Reached buffer start d' r'
  | readAll {d d' : RecordDecoder} {r r' : Reader} {res : Except RecordError Bytes}
    (h : Reached buffer start d r) (hread : d.readAll r = (res, d', r')) : Reached buffer start d' r'

theorem Reached.holds (h : Reached buffer start d r) : Holds buffer start.contents d r := by
  induction h with
  | ofBuffer => exact holds_ofBuffer buffer start
  | clear h =>
    subst h
    exact holds_ofBuffer _ start
  | read h hread ih => exact ih.read hread
  | readAll h hread ih => exact readAll_keeps (fun _ _ _ _ _ => Holds.read) ih hread

/-- Whatever calls were made and whatever came of them: what was taken from the stream is what the decoder
    holds, the bytes of the length and behind them those of the body, and never more than the length
    announces.  The decoder has a message exactly if all of it was taken, and it is the body.  If the length
    announces more than the buffer takes, no byte of the body was taken and the buffer is as it was;
    the call that has found it out has failed for it, and all that follow fail for it without a read. -/
theorem taken_as_held (h : Reached buffer start d r) :
    ∃ taken, start.contents = taken ++ r.contents
      ∧ taken = d.head.take (min d.offset recordHeadSize)
        ++ d.buffer.take (d.offset - recordHeadSize)
      ∧ taken.length = d.offset
      ∧ (∀ n, d.announced? = some n ↔ recordHeadSize ≤ taken.length ∧ n = announcedBy taken)
      ∧ taken.length ≤ recordHeadSize + announcedBy taken
      ∧ (∀ m, d.message = .ok (some m) ↔
        taken.length = recordHeadSize + announcedBy taken ∧ m = taken.drop recordHeadSize)
      ∧ (∀ n, d.announced? = some n → buffer.length < n →
        taken.length = recordHeadSize ∧ d.buffer = buffer
          ∧ ∀ r₁, d.read r₁ = (.error (.tooLarge ⟨n, buffer.length⟩), d, r₁)
            ∧ d.readAll r₁ = (.error (.tooLarge ⟨n, buffer.length⟩), d, r₁))
      ∧ ∀ d' r' n, d'.announced? = some n → buffer.length < n →
        (∀ res, d.read r = (res, d', r') → res = .error (.tooLarge ⟨n, buffer.length⟩))
          ∧ ∀ res, d.readAll r = (res, d', r') → res = .error (.tooLarge ⟨n, buffer.length⟩) := by
  have hholds := h.holds
  have hinOrder := hholds.inOrder
  have hannounced : announcedBy (d.head ++ d.body) = LittleEndian.toNat d.head := by
    rw [announcedBy, hinOrder.take_held]
  refine ⟨d.head ++ d.body, hholds.pending_eq.symm, ?_, List.length_append, ?_, ?_, ?_, ?_, ?_⟩
  · rw [hinOrder.take_head, hinOrder.take_buffer]
  · intro n
    rw [announced?_eq_some_iff, hannounced, List.length_append]
    exact and_congr_left' hinOrder.headComplete_iff.symm
  · rw [hannounced, List.length_append]
    exact Nat.add_le_add hinOrder.head_le hinOrder.body_le
  · intro m
    rw [hinOrder.message_eq_some_iff, hannounced, hinOrder.drop_held, List.length_append, offset]
  · intro n hn hlarge
    rw [← hholds.capacity_eq] at hlarge ⊢
    obtain ⟨hhead, rfl⟩ := announced?_eq_some_iff.1 hn
    have hnone : d.body = [] :=
      Decidable.byContradiction fun hne => Nat.not_le.2 hlarge (hholds.fits hne)
    refine ⟨?_, ?_, fun r₁ => ⟨read_of_oversized hn hlarge r₁, readAll_of_oversized hn hlarge r₁⟩⟩
    · rw [hnone, List.append_nil]
      exact Nat.le_antisymm hinOrder.head_le hhead
    · rw [RecordDecoder.buffer, hholds.spare_eq, hnone]
      rfl
  · intro d' r' n hn hlarge
    constructor
    · intro res hread
      have hcapacity := (hholds.read hread).capacity_eq
      rw [← hcapacity] at hlarge ⊢
      exact eq_error_of_read hn hlarge hread
    · intro res hread
      have hcapacity := (readAll_keeps (fun _ _ _ _ _ => Holds.read) hholds hread).capacity_eq
      rw [← hcapacity] at hlarge ⊢
      exact eq_error_of_readAll hn hlarge hread

/-- A stream that breaks inside a length, delivers nothing once, and ends behind the record. -/
def breakingReader : Reader where
  deliveries := [.data [2, 0, 0], .failure .broken, .data [], .data [0, 0, 0, 0, 0, 8, 9, 7]]

/-- The record was read with five calls, of which the second and the third failed. -/
theorem reached_breakingReader :
    Reached [1, 1] breakingReader ⟨[2, 0, 0, 0, 0, 0, 0, 0], [8, 9], []⟩ ⟨[.data [7]]⟩ := by
  have hhead : Reached [1, 1] breakingReader ⟨[2, 0, 0], [], [1, 1]⟩
      ⟨[.failure .broken, .data [], .data [0, 0, 0, 0, 0, 8, 9, 7]]⟩ := .read .ofBuffer rfl
  have hbroken : readAll ⟨[2, 0, 0], [], [1, 1]⟩
      ⟨[.failure .broken, .data [], .data [0, 0, 0, 0, 0, 8, 9, 7]]⟩
        = (.error (.stream .broken), ⟨[2, 0, 0], [], [1, 1]⟩,
          ⟨[.data [], .data [0, 0, 0, 0, 0, 8, 9, 7]]⟩) := by
    rw [readAll]
    rfl
  exact .read (.read (.read (hhead.readAll hbroken) rfl) rfl) rfl

/-- A stream that announces three bytes. -/
def announcingReader : Reader := .ofBytes [3, 0, 0, 0, 0, 0, 0, 0, 8]

theorem reached_announcingReader :
    Reached [1, 1] announcingReader ⟨[3, 0, 0, 0, 0, 0, 0, 0], [], [1, 1]⟩ ⟨[.data [8]]⟩ :=
  .read .ofBuffer rfl

theorem taken_as_held_breakingReader :
    (Reached [1, 1] breakingReader ⟨[2, 0, 0, 0, 0, 0, 0, 0], [8, 9], []⟩ ⟨[.data [7]]⟩
        ∧ message ⟨[2, 0, 0, 0, 0, 0, 0, 0], [8, 9], []⟩ = .ok (some [8, 9]))
      ∧ Reached [1, 1] announcingReader ⟨[3, 0, 0, 0, 0, 0, 0, 0], [], [1, 1]⟩ ⟨[.data [8]]⟩
      ∧ ∀ r₁, readAll ⟨[3, 0, 0, 0, 0, 0, 0, 0], [], [1, 1]⟩ r₁
        = (.error (.tooLarge ⟨3, 2⟩), ⟨[3, 0, 0, 0, 0, 0, 0, 0], [], [1, 1]⟩, r₁) := by
  refine ⟨⟨reached_breakingReader, ?_⟩, reached_announcingReader, ?_⟩
  · obtain ⟨taken, hcontents, -, -, -, -, hmessage, -⟩ := taken_as_held reached_breakingReader
    obtain rfl : [2, 0, 0, 0, 0, 0, 0, 0, 8, 9] = taken := List.append_cancel_right hcontents
    exact (hmessage _).2 ⟨rfl, rfl⟩
  · obtain ⟨taken, -, -, -, -, -, -, hlarge, -⟩ := taken_as_held reached_announcingReader
    exact fun r₁ => ((hlarge 3 rfl (by decide)).2.2 r₁).2

end OneTimeChannel.RecordDecoder

/-
  What a record decoder takes from a stream.

  The bytes that a decoder has read and those that are still in the stream make up the same byte string
  before and after every read (`pending`, `pending_read`), whatever the stream does.  So what a decoder
  will say is a function of this byte string, and `firstRecord` is that function: it knows nothing of the
  pieces in which the stream delivers.

  How far a record is decides what the decoder wants, what it says of the message and what the byte string
  says (`Stage`); all else about reads is read off the four stages.  A stream that delivers something each
  time, unless it interrupts, is therefore read as one byte string, and not beyond the record
  (`readAll_of_isSteady`).
-/
import OneTimeChannel.Record.Encoder
import Mathlib.Logic.Basic

namespace OneTimeChannel

/-! ## Streams -/

/-- The bytes of a delivery. -/
def Delivery.bytes : Delivery → Bytes
  | .data bs => bs
  | .failure _ => []

/-- A delivery after which the stream goes on. -/
def Delivery.IsSteady : Delivery → Prop
  | .data bs => bs ≠ []
  | .failure e => e = .interrupted

namespace Reader

variable {r r' : Reader} {n : Nat}

/-- Everything that the stream will deliver. -/
def contents (r : Reader) : Bytes := r.deliveries.flatMap Delivery.bytes

/-- A stream that delivers some bytes each time, unless it interrupts, and then ends. -/
def IsSteady (r : Reader) : Prop := ∀ d ∈ r.deliveries, d.IsSteady

/-- A read takes its bytes from the front. -/
theorem contents_of_read_eq_ok {bs : Bytes} (h : r.read n = (.ok bs, r')) :
    bs ++ r'.contents = r.contents := by
  unfold read at h
  split at h
  · cases h
    rfl
  · cases h
  · next data rest hdeliveries =>
    have hcontents : r.contents = data ++ contents ⟨rest⟩ := by
      rw [contents, hdeliveries]
      rfl
    rw [hcontents]
    split at h
    · cases h
      rfl
    · cases h
      show data.take n ++ (data.drop n ++ contents ⟨rest⟩) = data ++ contents ⟨rest⟩
      rw [← List.append_assoc, List.take_append_drop]

/-- A read that fails takes nothing. -/
theorem contents_of_read_eq_error {e : StreamError} (h : r.read n = (.error e, r')) :
    r'.contents = r.contents := by
  unfold read at h
  split at h
  · cases h
  · next e' rest hdeliveries =>
    cases h
    rw [contents, contents, hdeliveries]
    rfl
  · split at h <;> cases h

/-- A steady stream stays steady, fails only by being interrupted and delivers nothing only at its
    end. -/
theorem IsSteady.read {res : Except StreamError Bytes} (hr : r.IsSteady) (hn : 0 < n)
    (h : r.read n = (res, r')) :
    r'.IsSteady ∧ (∀ e, res = .error e → e = .interrupted)
      ∧ (res = .ok [] → r'.contents = []) := by
  unfold Reader.read at h
  split at h
  · next hdeliveries =>
    cases h
    refine ⟨hr, ?_, fun _ => ?_⟩
    · intro e he
      cases he
    · rw [contents, hdeliveries]
      rfl
  · next e rest hdeliveries =>
    rw [IsSteady, hdeliveries, List.forall_mem_cons] at hr
    cases h
    refine ⟨hr.2, ?_, (fun hres => nomatch hres)⟩
    intro e' he
    cases he
    exact hr.1
  · next data rest hdeliveries =>
    rw [IsSteady, hdeliveries, List.forall_mem_cons] at hr
    have hdata : data ≠ [] := hr.1
    split at h
    · cases h
      refine ⟨hr.2, (fun e he => nomatch he), ?_⟩
      intro hres
      exact absurd (Except.ok.inj hres) hdata
    · next hlength =>
      cases h
      refine ⟨?_, (fun e he => nomatch he), ?_⟩
      · refine List.forall_mem_cons.2 ⟨?_, hr.2⟩
        show data.drop n ≠ []
        intro hnil
        exact hlength (List.drop_eq_nil_iff.1 hnil)
      · intro hres
        rcases List.take_eq_nil_iff.1 (Except.ok.inj hres) with hzero | hnil
        · omega
        · exact absurd hnil hdata

/-- A byte string that is delivered at once. -/
theorem contents_ofBytes (bs : Bytes) : (ofBytes bs).contents = bs := List.append_nil bs

theorem isSteady_ofBytes {bs : Bytes} (h : bs ≠ []) : (ofBytes bs).IsSteady := by
  intro d hd
  rw [List.mem_singleton.1 hd]
  exact h

end Reader

/-! ## Records in a byte string -/

/-- The record at the front of a byte string that ends there, and what stands behind it. -/
def firstRecord (capacity : Nat) (bytes : Bytes) : Except RecordError (Bytes × Bytes) :=
  let head := bytes.take recordHeadSize
  let rest := bytes.drop recordHeadSize
  let announced := LittleEndian.toNat head
  if head.length < recordHeadSize then .error (.stream .endOfStream)
  else if capacity < announced then .error (.tooLarge ⟨announced, capacity⟩)
  else if rest.length < announced then .error (.stream .endOfStream)
  else .ok (rest.take announced, rest.drop announced)

section FirstRecord

variable {capacity : Nat} {head rest : Bytes}

theorem firstRecord_of_short {bytes : Bytes} (h : bytes.length < recordHeadSize) :
    firstRecord capacity bytes = .error (.stream .endOfStream) := by
  have hlength : (bytes.take recordHeadSize).length < recordHeadSize := by
    rw [List.length_take]
    omega
  rw [firstRecord]
  exact if_pos hlength

/-- With a whole head, what decides is the announced length. -/
theorem firstRecord_append (hhead : head.length = recordHeadSize) :
    firstRecord capacity (head ++ rest)
      = if capacity < LittleEndian.toNat head then .error (.tooLarge ⟨LittleEndian.toNat head, capacity⟩)
        else if rest.length < LittleEndian.toNat head then .error (.stream .endOfStream)
        else .ok (rest.take (LittleEndian.toNat head), rest.drop (LittleEndian.toNat head)) := by
  have htake : (head ++ rest).take recordHeadSize = head := List.take_left' hhead
  have hdrop : (head ++ rest).drop recordHeadSize = rest := List.drop_left' hhead
  rw [firstRecord, htake, hdrop, if_neg (Nat.not_lt.2 (Nat.le_of_eq hhead.symm))]

/-- A record that was written, with anything behind it. -/
theorem firstRecord_encoded {body : Bytes} (hlength : body.length < 1 <<< 64) (rest : Bytes) :
    firstRecord capacity (RecordEncoder.encoded { body } ++ rest)
      = if capacity < body.length then .error (.tooLarge ⟨body.length, capacity⟩)
        else .ok (body, rest) := by
  have hhead : (RecordEncoder.head { body }).length = recordHeadSize := LittleEndian.length_ofNat _ _
  have hannounced : LittleEndian.toNat (RecordEncoder.head { body }) = body.length := by
    rw [RecordEncoder.head, LittleEndian.toNat_ofNat]
    exact Nat.mod_eq_of_lt hlength
  have hshort : ¬ (body ++ rest).length < body.length := by
    rw [List.length_append]
    omega
  rw [RecordEncoder.encoded, List.append_assoc, firstRecord_append hhead, hannounced,
    if_neg hshort, List.take_left, List.drop_left]

/-- A byte string starts with a record exactly if it is the record and what stands behind it. -/
theorem firstRecord_eq_ok_iff {bytes body : Bytes} (hcapacity : capacity < 1 <<< 64) :
    firstRecord capacity bytes = .ok (body, rest) ↔
      bytes = RecordEncoder.encoded { body } ++ rest ∧ body.length ≤ capacity := by
  constructor
  · intro h
    rcases Nat.lt_or_ge bytes.length recordHeadSize with hshort | hlong
    · rw [firstRecord_of_short hshort] at h
      cases h
    obtain ⟨head, tail, rfl, hhead⟩ : ∃ head tail, bytes = head ++ tail ∧ head.length = recordHeadSize :=
      ⟨_, _, (List.take_append_drop recordHeadSize bytes).symm, List.length_take_of_le hlong⟩
    rw [firstRecord_append hhead] at h
    split at h
    · cases h
    next hfits =>
    split at h
    · cases h
    next hlength =>
    cases h
    have hbody := List.length_take_of_le (Nat.not_lt.1 hlength)
    have hhead' : RecordEncoder.head { body := tail.take (LittleEndian.toNat head) } = head := by
      rw [RecordEncoder.head, hbody, ← hhead, LittleEndian.ofNat_toNat]
    refine ⟨?_, Nat.le_trans (Nat.le_of_eq hbody) (Nat.not_lt.1 hfits)⟩
    rw [RecordEncoder.encoded, hhead', List.append_assoc, List.take_append_drop]
  · rintro ⟨rfl, hfits⟩
    rw [firstRecord_encoded (Nat.lt_of_le_of_lt hfits hcapacity), if_neg (Nat.not_lt.2 hfits)]

/-- So it starts with one record only. -/
theorem encoded_append_inj {body body' rest' : Bytes} (hlength : body.length < 1 <<< 64)
    (hlength' : body'.length < 1 <<< 64)
    (h : RecordEncoder.encoded { body } ++ rest = RecordEncoder.encoded { body := body' } ++ rest') :
    body = body' ∧ rest = rest' := by
  have hfirst : firstRecord body.length (RecordEncoder.encoded { body } ++ rest) = .ok (body, rest) :=
    (firstRecord_eq_ok_iff hlength).2 ⟨rfl, Nat.le_refl _⟩
  rw [h, firstRecord_encoded hlength'] at hfirst
  split at hfirst
  · cases hfirst
  · cases hfirst
    exact ⟨rfl, rfl⟩

end FirstRecord

namespace RecordDecoder

variable {d d' : RecordDecoder} {r r' : Reader}

/-! ## What was read -/

/-- The body is read behind the head, and not beyond its end. -/
structure InOrder (d : RecordDecoder) : Prop where
  head_le : d.head.length ≤ recordHeadSize
  body_eq_nil : d.head.length < recordHeadSize → d.body = []
  body_le : d.body.length ≤ LittleEndian.toNat d.head

theorem capacity_ofBuffer (buffer : Bytes) : (ofBuffer buffer).capacity = buffer.length := by
  show 0 + buffer.length = buffer.length
  omega

/-- A cleared decoder is a new one with a buffer of the same length. -/
theorem clear_eq_ofBuffer (d : RecordDecoder) : d.clear = ofBuffer (List.replicate d.capacity 0) :=
  rfl

theorem inOrder_ofBuffer (buffer : Bytes) : (ofBuffer buffer).InOrder where
  head_le := Nat.zero_le _
  body_eq_nil _ := rfl
  body_le := Nat.zero_le _

/-! ## How far a record is -/

/-- What is wanted next, what can be said about the message, and what a byte string that starts with the
    bytes that were read says about it. -/
inductive Stage (d : RecordDecoder) : Prop where
  | inHead (hhead : d.head.length < recordHeadSize) (hbody : d.body = [])
    (hwanted : d.wanted = .ok (some (recordHeadSize - d.head.length))) (hmessage : d.message = .ok none)
    (hfirst : firstRecord d.capacity (d.head ++ d.body) = .error (.stream .endOfStream))
  | tooLarge (hwanted : d.wanted = .error ⟨LittleEndian.toNat d.head, d.capacity⟩)
    (hmessage : d.message = .error ⟨LittleEndian.toNat d.head, d.capacity⟩)
    (hfirst : ∀ rest, firstRecord d.capacity (d.head ++ d.body ++ rest)
      = .error (.tooLarge ⟨LittleEndian.toNat d.head, d.capacity⟩))
  | inBody (hhead : d.head.length = recordHeadSize) (hfits : LittleEndian.toNat d.head ≤ d.capacity)
    (hbody : d.body.length < LittleEndian.toNat d.head)
    (hwanted : d.wanted = .ok (some (LittleEndian.toNat d.head - d.body.length)))
    (hmessage : d.message = .ok none)
    (hfirst : firstRecord d.capacity (d.head ++ d.body) = .error (.stream .endOfStream))
  | complete (hwanted : d.wanted = .ok none) (hmessage : d.message = .ok (some d.body))
    (hfirst : ∀ rest, firstRecord d.capacity (d.head ++ d.body ++ rest) = .ok (d.body, rest))

/-- The bytes that were read decide about the stage. -/
theorem InOrder.stage (hd : d.InOrder) : d.Stage := by
  rcases Nat.lt_or_ge d.head.length recordHeadSize with hlt | hge
  · have hannounced : d.announced? = none := by
      rw [announced?, headComplete, decide_eq_false (Nat.not_le.2 hlt)]
      rfl
    have hbody := hd.body_eq_nil hlt
    refine .inHead hlt hbody (by rw [wanted, hannounced]) (by rw [message, hannounced]) ?_
    rw [hbody, List.append_nil]
    exact firstRecord_of_short hlt
  have hannounced : d.announced? = some (LittleEndian.toNat d.head) := by
    rw [announced?, headComplete, decide_eq_true hge, if_pos rfl]
  have hhead := Nat.le_antisymm hd.head_le hge
  have hwanted : d.wanted = if LittleEndian.toNat d.head ≤ d.capacity
      then .ok (if d.body.length < LittleEndian.toNat d.head
        then some (LittleEndian.toNat d.head - d.body.length) else none)
      else .error ⟨LittleEndian.toNat d.head, d.capacity⟩ := by rw [wanted, hannounced]
  have hmessage : d.message = if LittleEndian.toNat d.head ≤ d.capacity
      then .ok (if d.body.length = LittleEndian.toNat d.head then some d.body else none)
      else .error ⟨LittleEndian.toNat d.head, d.capacity⟩ := by rw [message, hannounced]
  rcases Nat.lt_or_ge d.capacity (LittleEndian.toNat d.head) with hlarge | hfits
  · rw [if_neg (Nat.not_le.2 hlarge)] at hwanted hmessage
    refine .tooLarge hwanted hmessage fun rest => ?_
    rw [List.append_assoc, firstRecord_append hhead, if_pos hlarge]
  rw [if_pos hfits] at hwanted hmessage
  rcases Nat.lt_or_eq_of_le hd.body_le with hbody | hbody
  · rw [if_pos hbody] at hwanted
    rw [if_neg (Nat.ne_of_lt hbody)] at hmessage
    refine .inBody hhead hfits hbody hwanted hmessage ?_
    rw [firstRecord_append hhead, if_neg (Nat.not_lt.2 hfits), if_pos hbody]
  · rw [if_neg (Nat.not_lt.2 (Nat.le_of_eq hbody.symm))] at hwanted
    rw [if_pos hbody] at hmessage
    refine .complete hwanted hmessage fun rest => ?_
    rw [List.append_assoc, firstRecord_append hhead, if_neg (Nat.not_lt.2 hfits), ← hbody,
      List.length_append, if_neg (by omega), List.take_left, List.drop_left]

/-! ## Reading on -/

/-- The bytes that were read and those that are still to come. -/
def pending (d : RecordDecoder) (r : Reader) : Bytes := d.head ++ d.body ++ r.contents

theorem accept_of_lt (h : d.head.length < recordHeadSize) (bs : Bytes) :
    d.accept bs = { d with head := d.head ++ bs } := by
  rw [accept, headComplete, decide_eq_false (Nat.not_le.2 h)]
  rfl

theorem accept_of_le (h : recordHeadSize ≤ d.head.length) (bs : Bytes) :
    d.accept bs = { d with body := d.body ++ bs, spare := d.spare.drop bs.length } := by
  rw [accept, headComplete, decide_eq_true h]
  rfl

/-- Bytes that were asked for are put where they belong. -/
theorem InOrder.accept {n : Nat} {bs : Bytes} (hd : d.InOrder) (hn : d.wanted = .ok (some n))
    (hbs : bs.length ≤ n) :
    (d.accept bs).InOrder ∧ (d.accept bs).capacity = d.capacity
      ∧ (d.accept bs).head ++ (d.accept bs).body = d.head ++ d.body ++ bs := by
  cases hd.stage with
  | inHead hhead hbody hwanted =>
    rw [hwanted] at hn
    cases hn
    rw [accept_of_lt hhead]
    refine ⟨⟨?_, fun _ => hbody, ?_⟩, rfl, ?_⟩
    · show (d.head ++ bs).length ≤ recordHeadSize
      rw [List.length_append]
      omega
    · show d.body.length ≤ LittleEndian.toNat (d.head ++ bs)
      rw [hbody]
      exact Nat.zero_le _
    · show d.head ++ bs ++ d.body = d.head ++ d.body ++ bs
      rw [hbody, List.append_nil, List.append_nil]
  | inBody hhead hfits hbody hwanted =>
    rw [hwanted] at hn
    cases hn
    have hge := Nat.le_of_eq hhead.symm
    rw [accept_of_le hge]
    refine ⟨⟨hd.head_le, fun hlt => absurd hlt (Nat.not_lt.2 hge), ?_⟩, ?_, ?_⟩
    · show (d.body ++ bs).length ≤ LittleEndian.toNat d.head
      rw [List.length_append]
      omega
    · simp only [capacity] at hfits ⊢
      rw [List.length_append, List.length_drop]
      omega
    · exact (List.append_assoc _ _ _).symm
  | tooLarge hwanted =>
    rw [hwanted] at hn
    cases hn
  | complete hwanted =>
    rw [hwanted] at hn
    cases hn

/-- The ways in which a read can end: without asking the stream, with its failure, or with bytes of it. -/
theorem read_cases {res : Except RecordError Progress} (h : d.read r = (res, d', r')) :
    (∃ e, d.wanted = .error e ∧ res = .error (.tooLarge e) ∧ d' = d ∧ r' = r)
      ∨ (d.wanted = .ok none ∧ res = d.progress 0 ∧ d' = d ∧ r' = r)
      ∨ (∃ n e, d.wanted = .ok (some n) ∧ r.read n = (.error e, r') ∧ res = .error (.stream e) ∧ d' = d)
      ∨ ∃ n bs, d.wanted = .ok (some n) ∧ r.read n = (.ok bs, r') ∧ res = d'.progress bs.length
        ∧ d' = d.accept bs := by
  unfold read at h
  split at h
  · next e hwanted =>
    cases h
    exact Or.inl ⟨e, hwanted, rfl, rfl, rfl⟩
  · next hwanted =>
    cases h
    exact Or.inr (Or.inl ⟨hwanted, rfl, rfl, rfl⟩)
  next n hwanted =>
  split at h
  · next e r'' hread =>
    cases h
    exact Or.inr (Or.inr (Or.inl ⟨n, e, hwanted, hread, rfl, rfl⟩))
  · next bs r'' hread =>
    cases h
    exact Or.inr (Or.inr (Or.inr ⟨n, bs, hwanted, hread, rfl, rfl⟩))

/-- No read loses or repeats a byte. -/
theorem pending_read {res : Except RecordError Progress} (hd : d.InOrder)
    (h : d.read r = (res, d', r')) :
    d'.InOrder ∧ d'.capacity = d.capacity ∧ d'.pending r' = d.pending r := by
  rcases read_cases h with ⟨e, -, -, rfl, rfl⟩ | ⟨-, -, rfl, rfl⟩ | ⟨n, e, -, hread, -, rfl⟩
    | ⟨n, bs, hwanted, hread, -, rfl⟩
  · exact ⟨hd, rfl, rfl⟩
  · exact ⟨hd, rfl, rfl⟩
  · refine ⟨hd, rfl, ?_⟩
    rw [pending, pending, Reader.contents_of_read_eq_error hread]
  · obtain ⟨hd', hcapacity, hbytes⟩ := hd.accept hwanted (Reader.length_read_le hread)
    refine ⟨hd', hcapacity, ?_⟩
    rw [pending, pending, hbytes, List.append_assoc, Reader.contents_of_read_eq_ok hread]

/-- What one read keeps, a run of reads keeps. -/
theorem readAll_keeps {P : RecordDecoder → Reader → Prop}
    (hread : ∀ d r res d' r', P d r → d.read r = (res, d', r') → P d' r')
    {res : Except RecordError Bytes} (hd : P d r) (h : d.readAll r = (res, d', r')) : P d' r' := by
  fun_induction readAll d r with
  | case1 d r n d₁ r₁ hstep m hmessage =>
    cases h
    exact hread _ _ _ _ _ hd hstep
  | case2 d r n d₁ r₁ hstep e hmessage =>
    cases h
    exact hread _ _ _ _ _ hd hstep
  | case3 d r n d₁ r₁ hstep ih => exact ih (hread _ _ _ _ _ hd hstep) h
  | case4 d r d₁ r₁ hstep ih => exact ih (hread _ _ _ _ _ hd hstep) h
  | case5 d r e d₁ r₁ hne hstep =>
    cases h
    exact hread _ _ _ _ _ hd hstep

/-! ## Steady streams -/

/-- The outcome of a read agrees with what the bytes say: a message that is complete is their first
    record, and a failure that is more than an interruption is theirs. -/
def Agrees (d : RecordDecoder) (r : Reader) : Except RecordError Progress → Prop
  | .ok p => p.done = true → d.message = .ok (some d.body)
      ∧ firstRecord d.capacity (d.pending r) = .ok (d.body, r.contents)
  | .error e => e ≠ .stream .interrupted → firstRecord d.capacity (d.pending r) = .error e

/-- It does if the stream delivers nothing only at its end. -/
theorem InOrder.agrees_progress {n : Nat} (hd : d.InOrder)
    (hend : n = 0 → d.message = .ok none → r.contents = []) : d.Agrees r (d.progress n) := by
  -- both in the head and in the body, a record can break off
  have hincomplete (hmessage : d.message = .ok none)
      (hfirst : firstRecord d.capacity (d.head ++ d.body) = .error (.stream .endOfStream)) :
      d.Agrees r (d.progress n) := by
    rw [progress, hmessage]
    dsimp only
    by_cases hn : n = 0
    · rw [if_pos ⟨hn, rfl⟩]
      intro _
      rw [pending, hend hn hmessage, List.append_nil]
      exact hfirst
    · rw [if_neg fun hnothing => hn hnothing.1]
      exact fun hdone => nomatch hdone
  cases hd.stage with
  | inHead _ _ _ hmessage hfirst => exact hincomplete hmessage hfirst
  | inBody _ _ _ _ hmessage hfirst => exact hincomplete hmessage hfirst
  | tooLarge _ hmessage hfirst =>
    rw [progress, hmessage]
    exact fun _ => hfirst _
  | complete _ hmessage hfirst =>
    rw [progress, hmessage]
    dsimp only
    rw [if_neg fun hnothing => nomatch hnothing.2]
    exact fun _ => ⟨hmessage, hfirst _⟩

/-- One read of a steady stream. -/
theorem InOrder.agrees_read {res : Except RecordError Progress} (hd : d.InOrder) (hr : r.IsSteady)
    (h : d.read r = (res, d', r')) : r'.IsSteady ∧ d'.Agrees r' res := by
  have hd' := (pending_read hd h).1
  have hreads (n : Nat) (hn : 0 < n) (hwanted : d.wanted = .ok (some n)) :
      r'.IsSteady ∧ d'.Agrees r' res := by
    rw [read, hwanted] at h
    dsimp only at h
    split at h
    · next cause r'' hread =>
      cases h
      obtain ⟨hsteady, hcause, -⟩ := hr.read hn hread
      exact ⟨hsteady, fun hne => absurd (congrArg RecordError.stream (hcause _ rfl)) hne⟩
    · next bs r'' hread =>
      cases h
      obtain ⟨hsteady, -, hend⟩ := hr.read hn hread
      refine ⟨hsteady, hd'.agrees_progress fun hzero _ => ?_⟩
      exact hend (congrArg Except.ok (List.eq_nil_of_length_eq_zero hzero))
  cases hd.stage with
  | inHead hhead _ hwanted => exact hreads _ (Nat.sub_pos_of_lt hhead) hwanted
  | inBody _ _ hbody hwanted => exact hreads _ (Nat.sub_pos_of_lt hbody) hwanted
  | tooLarge hwanted _ hfirst =>
    rw [read, hwanted] at h
    cases h
    exact ⟨hr, fun _ => hfirst _⟩
  | complete hwanted hmessage =>
    rw [read, hwanted] at h
    cases h
    refine ⟨hr, hd.agrees_progress fun _ hnone => ?_⟩
    rw [hmessage] at hnone
    cases hnone

/-- A steady stream is read as the byte string that it delivers, and not beyond the record. -/
theorem readAll_of_isSteady {res : Except RecordError Bytes} (hd : d.InOrder) (hr : r.IsSteady)
    (h : d.readAll r = (res, d', r')) :
    r'.IsSteady ∧ firstRecord d.capacity (d.pending r) = res.map fun record => (record, r'.contents) := by
  fun_induction readAll d r with
  | case1 d r n d₁ r₁ hstep m hmessage =>
    cases h
    obtain ⟨-, hcapacity, hpending⟩ := pending_read hd hstep
    obtain ⟨hsteady, hagrees⟩ := hd.agrees_read hr hstep
    obtain ⟨hcomplete, hfirst⟩ := hagrees rfl
    rw [hmessage] at hcomplete
    cases hcomplete
    rw [← hcapacity, ← hpending]
    exact ⟨hsteady, hfirst⟩
  | case2 d r n d₁ r₁ hstep e hmessage =>
    rw [((hd.agrees_read hr hstep).2 rfl).1] at hmessage
    cases hmessage
  | case3 d r n d₁ r₁ hstep ih =>
    obtain ⟨hd₁, hcapacity, hpending⟩ := pending_read hd hstep
    rw [← hcapacity, ← hpending]
    exact ih hd₁ (hd.agrees_read hr hstep).1 h
  | case4 d r d₁ r₁ hstep ih =>
    obtain ⟨hd₁, hcapacity, hpending⟩ := pending_read hd hstep
    rw [← hcapacity, ← hpending]
    exact ih hd₁ (hd.agrees_read hr hstep).1 h
  | case5 d r e d₁ r₁ hne hstep =>
    cases h
    obtain ⟨-, hcapacity, hpending⟩ := pending_read hd hstep
    obtain ⟨hsteady, hagrees⟩ := hd.agrees_read hr hstep
    rw [← hcapacity, ← hpending]
    exact ⟨hsteady, hagrees hne⟩

end RecordDecoder

end OneTimeChannel

/-
  What a record encoder puts on a stream.

  At every point the stream has taken the record up to the position of the encoder, and nothing else
  (`IsSent`).  One write keeps this (`IsSent.write`) because what it offers is the record from the position
  on, head and body one after the other (`take_next`); a run of writes keeps it by induction
  (`UnderWay.writeAll`).  A stream that takes at least a byte whenever it does not merely ask for patience
  gets the whole record (`writeAll_of_isSteady`).
-/
import OneTimeChannel.Record.Encoder
import Mathlib.Logic.Basic

namespace OneTimeChannel

/-! ## Streams -/

/-- An answer that refuses nothing for good. -/
def Acceptance.IsSteady : Acceptance → Prop
  | .upTo n => 0 < n
  | .failure e => e = .interrupted

namespace Writer

variable {w w' : Writer} {bs : Bytes}

/-- A stream that takes some bytes of every write, unless it interrupts. -/
def IsSteady (w : Writer) : Prop := ∀ a ∈ w.acceptances, a.IsSteady

theorem written_of_write_eq_ok {n : Nat} (h : w.write bs = (.ok n, w')) :
    w'.written = w.written ++ bs.take n := by
  unfold write at h
  split at h
  · cases h
    rw [List.take_length]
  · cases h
  · next m rest _ =>
    cases h
    show w.written ++ bs.take m = w.written ++ bs.take (min m bs.length)
    rw [List.take_eq_take_min]

theorem written_of_write_eq_error {e : StreamError} (h : w.write bs = (.error e, w')) :
    w'.written = w.written := by
  unfold write at h
  split at h
  · cases h
  · cases h
    rfl
  · cases h

/-- A steady stream stays steady, and a write fails only by being interrupted. -/
theorem IsSteady.write {res : Except StreamError Nat} (hw : w.IsSteady) (hbs : bs ≠ [])
    (h : w.write bs = (res, w')) :
    w'.IsSteady ∧ (res = .error .interrupted ∨ ∃ n, res = .ok (n + 1)) := by
  have hpos : 0 < bs.length := List.length_pos_iff.2 hbs
  unfold Writer.write at h
  split at h
  · cases h
    exact ⟨hw, Or.inr ⟨bs.length - 1, by rw [Nat.sub_add_cancel hpos]⟩⟩
  · next e rest hacceptances =>
    rw [IsSteady, hacceptances, List.forall_mem_cons] at hw
    cases h
    exact ⟨hw.2, Or.inl (congrArg Except.error hw.1)⟩
  · next m rest hacceptances =>
    rw [IsSteady, hacceptances, List.forall_mem_cons] at hw
    have hm : 0 < m := hw.1
    cases h
    refine ⟨hw.2, Or.inr ⟨min m bs.length - 1, ?_⟩⟩
    rw [Nat.sub_add_cancel (Nat.lt_min.2 ⟨hm, hpos⟩)]

end Writer

namespace RecordEncoder

variable {e e' : RecordEncoder} {w w' : Writer} {body before : Bytes}

theorem length_encoded (e : RecordEncoder) : e.encoded.length = e.encodedLength := by
  rw [encoded, List.length_append, head, LittleEndian.length_ofNat, encodedLength]

/-- What is offered is the record from the position on. -/
theorem take_next {n : Nat} (hn : n ≤ e.next.length) :
    e.next.take n = (e.encoded.drop e.position).take n := by
  have hhead : e.head.length = recordHeadSize := LittleEndian.length_ofNat _ _
  rw [next] at hn ⊢
  rw [encoded]
  split at hn
  · next hposition =>
    rw [if_pos hposition, List.drop_append_of_le_length (by omega),
      List.take_append_of_le_length hn]
  · next hposition =>
    have hsent : e.head.drop e.position = [] := List.drop_eq_nil_of_le (by omega)
    rw [if_neg hposition, List.drop_append, hsent, List.nil_append, hhead]

/-- A write offers nothing but what follows the position. -/
theorem next_prefix_drop (e : RecordEncoder) : e.next <+: e.encoded.drop e.position := by
  have htake := take_next (e := e) (Nat.le_refl e.next.length)
  rw [List.take_length] at htake
  rw [htake]
  exact List.take_prefix _ _

/-! ## What was taken -/

/-- Since it had taken `before`, the stream has taken the record up to the position. -/
def IsSent (before : Bytes) (e : RecordEncoder) (w : Writer) : Prop :=
  w.written = before ++ e.encoded.take e.position

/-- No byte is lost and none is repeated, whether the write fails or not. -/
theorem IsSent.write {res : Except StreamError Progress} (h : IsSent before e w)
    (hwrite : e.write w = (res, e', w')) : IsSent before e' w' ∧ e'.body = e.body := by
  unfold RecordEncoder.write at hwrite
  split at hwrite
  · cases hwrite
    exact ⟨h, rfl⟩
  split at hwrite
  · next err w'' hw =>
    cases hwrite
    exact ⟨(Writer.written_of_write_eq_error hw).trans h, rfl⟩
  · next w'' hw =>
    cases hwrite
    refine ⟨(Writer.written_of_write_eq_ok hw).trans ?_, rfl⟩
    rw [List.take_zero, List.append_nil]
    exact h
  · next n w'' hw =>
    cases hwrite
    refine ⟨?_, rfl⟩
    show w'.written = before ++ e.encoded.take (e.position + (n + 1))
    rw [Writer.written_of_write_eq_ok hw, h, take_next (Writer.taken_le hw), List.append_assoc,
      ← List.take_add]

/-- The position is moved by what was taken. -/
theorem position_of_write_eq_ok {p : Progress} (hwrite : e.write w = (.ok p, e', w')) :
    e'.position = e.position + p.bytesWritten := by
  unfold write at hwrite
  split at hwrite
  · cases hwrite
    rfl
  split at hwrite
  · cases hwrite
  · cases hwrite
  · cases hwrite
    rfl

/-- The position does not pass the end. -/
theorem position_le_of_write {res : Except StreamError Progress} (hle : e.position ≤ e.encodedLength)
    (hwrite : e.write w = (res, e', w')) : e'.position ≤ e'.encodedLength := by
  unfold write at hwrite
  split at hwrite
  · cases hwrite
    exact hle
  split at hwrite
  · cases hwrite
    exact hle
  · cases hwrite
    exact hle
  · next n w'' hw =>
    have htaken := Writer.taken_le hw
    have hnext := (next_prefix_drop e).length_le
    rw [List.length_drop, length_encoded] at hnext
    cases hwrite
    show e.position + (n + 1) ≤ e.encodedLength
    omega

/-- A write says that it is done when nothing is left. -/
theorem exhausted_of_write {p : Progress} (hwrite : e.write w = (.ok p, e', w')) :
    e'.exhausted = p.done := by
  unfold write at hwrite
  split at hwrite
  · next hexhausted =>
    cases hwrite
    exact hexhausted
  split at hwrite
  · cases hwrite
  · cases hwrite
  · cases hwrite
    rfl

/-- The record with this body is on its way to a stream that had taken `before` when it was started. -/
structure UnderWay (body before : Bytes) (e : RecordEncoder) (w : Writer) : Prop where
  body_eq : e.body = body
  isSent : IsSent before e w
  position_le : e.position ≤ e.encodedLength

theorem underWay_start (body : Bytes) (w : Writer) : UnderWay body w.written { body } w where
  body_eq := rfl
  isSent := (List.append_nil _).symm
  position_le := Nat.zero_le _

theorem UnderWay.encoded_eq (h : UnderWay body before e w) : e.encoded = encoded { body } := by
  rw [encoded, encoded, head, head, h.body_eq]

theorem UnderWay.write {res : Except StreamError Progress} (h : UnderWay body before e w)
    (hwrite : e.write w = (res, e', w')) : UnderWay body before e' w' where
  body_eq := (h.isSent.write hwrite).2.trans h.body_eq
  isSent := (h.isSent.write hwrite).1
  position_le := position_le_of_write h.position_le hwrite

/-- What holds behind every single write of a run of writes holds behind the run, and a run that ends well
    has left nothing of the record. -/
theorem UnderWay.writeAll {res : Except StreamError Unit} (h : UnderWay body before e w)
    (hwrite : e.writeAll w = (res, e', w')) :
    UnderWay body before e' w' ∧ (res = .ok () → e'.exhausted = true) := by
  fun_induction RecordEncoder.writeAll e w with
  | case1 e w n e₁ w₁ hstep =>
    cases hwrite
    exact ⟨h.write hstep, fun _ => exhausted_of_write hstep⟩
  | case2 e w n e₁ w₁ hstep ih => exact ih (h.write hstep) hwrite
  | case3 e w e₁ w₁ hstep ih => exact ih (h.write hstep) hwrite
  | case4 e w err e₁ w₁ hne hstep =>
    cases hwrite
    exact ⟨h.write hstep, fun hok => nomatch hok⟩

/-- A record that was written stands behind what the stream had before. -/
theorem written_of_writeAll (h : writeAll { body } w = (.ok (), e', w')) :
    w'.written = w.written ++ encoded { body } := by
  obtain ⟨hway, hdone⟩ := (underWay_start body w).writeAll h
  have hposition : e'.encoded.length ≤ e'.position := by
    rw [length_encoded]
    exact of_decide_eq_true (hdone rfl)
  rw [hway.isSent, List.take_of_length_le hposition, hway.encoded_eq]

/-! ## Steady streams -/

theorem write_of_isSteady {res : Except StreamError Progress} (hw : w.IsSteady)
    (hwrite : e.write w = (res, e', w')) :
    w'.IsSteady ∧ (res = .error .interrupted ∨ ∃ p, res = .ok p) := by
  unfold write at hwrite
  split at hwrite
  · cases hwrite
    exact ⟨hw, Or.inr ⟨_, rfl⟩⟩
  next hexhausted =>
  have hnext : e.next ≠ [] := List.length_pos_iff.1 (length_next_pos (Bool.eq_false_iff.2 hexhausted))
  split at hwrite
  · next err w'' hstep =>
    cases hwrite
    obtain ⟨hsteady, hres | ⟨n, hres⟩⟩ := hw.write hnext hstep
    · cases hres
      exact ⟨hsteady, Or.inl rfl⟩
    · cases hres
  · next w'' hstep =>
    obtain ⟨-, hres | ⟨n, hres⟩⟩ := hw.write hnext hstep
    · cases hres
    · cases hres
  · next n w'' hstep =>
    cases hwrite
    exact ⟨(hw.write hnext hstep).1, Or.inr ⟨_, rfl⟩⟩

/-- A steady stream gets the whole record. -/
theorem writeAll_of_isSteady (hw : w.IsSteady) :
    ∃ e' w', e.writeAll w = (.ok (), e', w') ∧ w'.IsSteady := by
  fun_induction RecordEncoder.writeAll e w with
  | case1 e w n e₁ w₁ hstep => exact ⟨e₁, w₁, rfl, (write_of_isSteady hw hstep).1⟩
  | case2 e w n e₁ w₁ hstep ih => exact ih (write_of_isSteady hw hstep).1
  | case3 e w e₁ w₁ hstep ih => exact ih (write_of_isSteady hw hstep).1
  | case4 e w err e₁ w₁ hne hstep =>
    rcases (write_of_isSteady hw hstep).2 with hres | ⟨p, hres⟩
    · cases hres
      exact absurd rfl hne
    · cases hres

end RecordEncoder

end OneTimeChannel

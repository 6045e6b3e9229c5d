/-
  Where a record stands that is written in many calls.

  The caller of an encoder may write once, write until the record is complete, and start over, in any order
  and whatever came of the calls before (`Reached`).  At every point the stream has taken the record up to
  the position since it was last started, and the position stays within the record (`Reached.underWay`).  So
  a call that fails has lost nothing, and the next one offers what follows (`next_prefix_drop`).

  Writing until the record is complete is a loop of single writes, and `writeWithin` is this loop with a
  bound on how many there are.  The bound is not met if it is more than the work that is to be done
  (`writeWithin_eq`), which gets less with every write.  What makes the loop fail is the last answer that
  the stream gave, and that is never an interruption (`writeAll_eq_error`).
-/
import OneTimeChannel.Proofs.Record.Encoder

namespace OneTimeChannel

/-! ## Answers of a stream -/

/-- The answers that make a write fail. -/
inductive Acceptance.Fails : Acceptance → StreamError → Prop where
  | failure (e : StreamError) : Fails (.failure e) e
  /-- Nothing is taken of what is offered. -/
  | nothing : Fails (.upTo 0) .refused

namespace Writer

variable {w w' : Writer} {bs : Bytes}

theorem acceptances_of_write_eq_error {e : StreamError} (h : w.write bs = (.error e, w')) :
    w.acceptances = .failure e :: w'.acceptances := by
  unfold write at h
  split at h
  · cases h
  · next e' rest hacceptances =>
    cases h
    exact hacceptances
  · cases h

/-- A stream that takes nothing of what is offered was told so. -/
theorem acceptances_of_write_eq_zero (hbs : 0 < bs.length) (h : w.write bs = (.ok 0, w')) :
    w.acceptances = .upTo 0 :: w'.acceptances := by
  unfold write at h
  split at h
  · have hlength : bs.length = 0 := Except.ok.inj (Prod.mk.inj h).1
    omega
  · cases h
  · next n rest hacceptances =>
    have hmin : min n bs.length = 0 := Except.ok.inj (Prod.mk.inj h).1
    obtain rfl : n = 0 := by omega
    obtain rfl := (Prod.mk.inj h).2
    exact hacceptances

/-- Answers are given in their order. -/
theorem acceptances_suffix_of_write {res : Except StreamError Nat} (h : w.write bs = (res, w')) :
    w'.acceptances <:+ w.acceptances := by
  unfold write at h
  split at h
  · cases h
    exact List.suffix_refl _
  · next e rest hacceptances =>
    cases h
    rw [hacceptances]
    exact List.suffix_cons _ _
  · next n rest hacceptances =>
    cases h
    rw [hacceptances]
    exact List.suffix_cons _ _

end Writer

namespace RecordEncoder

variable {e e' : RecordEncoder} {w w' : Writer} {body before : Bytes}

/-! ## Writes that fail -/

/-- A write that fails leaves everything as it is, but for the answer that made it fail, and it fails only
    if there is something left to be written. -/
theorem write_eq_error {err : StreamError} (h : e.write w = (.error err, e', w')) :
    e' = e ∧ w'.written = w.written ∧ e.exhausted = false
      ∧ ∃ a, w.acceptances = a :: w'.acceptances ∧ a.Fails err := by
  unfold write at h
  split at h
  · cases h
  next hexhausted =>
  have hleft : e.exhausted = false := Bool.eq_false_iff.2 hexhausted
  split at h
  · next cause w'' hwrite =>
    cases h
    exact ⟨rfl, Writer.written_of_write_eq_error hwrite, hleft, _,
      Writer.acceptances_of_write_eq_error hwrite, .failure _⟩
  · next w'' hwrite =>
    cases h
    refine ⟨rfl, ?_, hleft, _,
      Writer.acceptances_of_write_eq_zero (length_next_pos hleft) hwrite, .nothing⟩
    rw [Writer.written_of_write_eq_ok hwrite, List.take_zero, List.append_nil]
  · cases h

theorem acceptances_suffix {res : Except StreamError Progress} (h : e.write w = (res, e', w')) :
    w'.acceptances <:+ w.acceptances := by
  unfold write at h
  split at h
  · cases h
    exact List.suffix_refl _
  split at h
  all_goals
    next hwrite =>
    cases h
    exact Writer.acceptances_suffix_of_write hwrite

/-- A run of writes fails for the last answer of the stream, which is no interruption. -/
theorem writeAll_eq_error {err : StreamError} (h : e.writeAll w = (.error err, e', w')) :
    err ≠ .interrupted ∧ e'.exhausted = false
      ∧ ∃ earlier a, w.acceptances = earlier ++ a :: w'.acceptances ∧ a.Fails err := by
  -- what the rest of the run says about its own answers holds of all answers
  have hearlier {e₁ : RecordEncoder} {w₁ : Writer} {res : Except StreamError Progress}
      {e₂ : RecordEncoder} {w₂ : Writer} (hstep : e₁.write w₁ = (res, e₂, w₂))
      (hrest : ∃ earlier a, w₂.acceptances = earlier ++ a :: w'.acceptances ∧ a.Fails err) :
      ∃ earlier a, w₁.acceptances = earlier ++ a :: w'.acceptances ∧ a.Fails err := by
    obtain ⟨earlier, a, hacceptances, hfails⟩ := hrest
    obtain ⟨first, hfirst⟩ := acceptances_suffix hstep
    refine ⟨first ++ earlier, a, ?_, hfails⟩
    rw [← hfirst, hacceptances, List.append_assoc]
  fun_induction RecordEncoder.writeAll e w with
  | case1 => cases h
  | case2 e w n e₁ w₁ hstep ih =>
    obtain ⟨hne, hleft, hrest⟩ := ih h
    exact ⟨hne, hleft, hearlier hstep hrest⟩
  | case3 e w e₁ w₁ hstep ih =>
    obtain ⟨hne, hleft, hrest⟩ := ih h
    exact ⟨hne, hleft, hearlier hstep hrest⟩
  | case4 e w cause e₁ w₁ hne hstep =>
    cases h
    obtain ⟨rfl, -, hleft, a, hacceptances, hfails⟩ := write_eq_error hstep
    exact ⟨hne, hleft, [], a, hacceptances, hfails⟩

/-! ## Runs of writes end -/

/-- Writes until the record is complete or a write fails for good, with at most so many writes; `none` if
    these were not enough. -/
def writeWithin : Nat → RecordEncoder → Writer → Option (Except StreamError Unit × RecordEncoder × Writer)
  | 0, _, _ => none
  | bound + 1, e, w =>
    match e.write w with
    | (.ok ⟨_, true⟩, e', w') => some (.ok (), e', w')
    | (.ok ⟨_, false⟩, e', w') => writeWithin bound e' w'
    | (.error .interrupted, e', w') => writeWithin bound e' w'
    | (.error err, e', w') => some (.error err, e', w')

theorem writeWithin_eq {bound : Nat} (h : e.work w < bound) :
    writeWithin bound e w = some (e.writeAll w) := by
  obtain ⟨bound, rfl⟩ : ∃ n, bound = n + 1 := ⟨bound - 1, by omega⟩
  fun_induction RecordEncoder.writeAll e w generalizing bound with
  | case1 e w n e₁ w₁ hstep => rw [writeWithin, hstep]
  | case2 e w n e₁ w₁ hstep ih =>
    have hwork := work_lt_of_ok hstep rfl
    obtain ⟨rest, rfl⟩ : ∃ n, bound = n + 1 := ⟨bound - 1, by omega⟩
    rw [writeWithin, hstep]
    exact ih rest (by omega)
  | case3 e w e₁ w₁ hstep ih =>
    have hwork := work_lt_of_interrupted hstep
    obtain ⟨rest, rfl⟩ : ∃ n, bound = n + 1 := ⟨bound - 1, by omega⟩
    rw [writeWithin, hstep]
    exact ih rest (by omega)
  | case4 e w err e₁ w₁ hne hstep =>
    rw [writeWithin, hstep]
    cases err with
    | interrupted => exact absurd rfl hne
    | broken | endOfStream | refused => rfl

/-! ## Many calls -/

/-- What comes about by calls: the encoder, the stream, and what the stream had taken when the record was
    last started. -/
inductive Reached (body : Bytes) : Bytes → RecordEncoder → Writer → Prop where
  | start (w : Writer) : Reached body w.written { body } w
  | write {before : Bytes} {e e' : RecordEncoder} {w w' : Writer} {res : Except StreamError Progress}
    (h : Reached body before e w) (hwrite : e.write w = (res, e', w')) : Reached body before e' w'
  | writeAll {before : Bytes} {e e' : RecordEncoder} {w w' : Writer} {res : Except StreamError Unit}
    (h : Reached body before e w) (hwrite : e.writeAll w = (res, e', w')) : Reached body before e' w'
  | restart {before : Bytes} {e : RecordEncoder} {w : Writer} (h : Reached body before e w) :
    Reached body w.written e.restart w

theorem UnderWay.restart (h : UnderWay body before e w) : UnderWay body w.written e.restart w where
  body_eq := h.body_eq
  isSent := (List.append_nil _).symm
  position_le := Nat.zero_le _

theorem Reached.underWay (h : Reached body before e w) : UnderWay body before e w := by
  induction h with
  | start w => exact underWay_start body w
  | write h hwrite ih => exact ih.write hwrite
  | writeAll h hwrite ih => exact (ih.writeAll hwrite).1
  | restart h ih => exact ih.restart

theorem UnderWay.exhausted_iff (h : UnderWay body before e w) :
    e.exhausted = true ↔ e.position = e.encodedLength := by
  rw [exhausted, decide_eq_true_iff]
  exact ⟨fun hge => Nat.le_antisymm h.position_le hge, fun heq => Nat.le_of_eq heq.symm⟩

/-- Whatever calls were made and whatever came of them: since the record was last started, the stream has
    taken its length and its body up to the position, and no more; the next write offers what follows.
    A write that succeeds moves the position by what was taken, and says that it is done exactly at the end of
    the record; one that fails takes nothing and leaves the position.  A run of writes ends.  It ends well at
    the end of the record and nowhere else; it fails for the last answer that the stream gave, which is
    a failure and no interruption or takes nothing. -/
theorem taken_up_to_position (h : Reached body before e w) :
    (w.written = before ++ (LittleEndian.ofNat recordHeadSize body.length ++ body).take e.position
        ∧ e.position ≤ e.encodedLength ∧ e.encodedLength = recordHeadSize + body.length
        ∧ (e.exhausted = true ↔ e.position = e.encodedLength))
      ∧ (e.next <+: (LittleEndian.ofNat recordHeadSize body.length ++ body).drop e.position
        ∧ (e.next = [] → e.position = e.encodedLength))
      ∧ (∀ p e' w', e.write w = (.ok p, e', w') → e'.position = e.position + p.bytesWritten
        ∧ (p.done = true ↔ e'.position = e'.encodedLength))
      ∧ (∀ err e' w', e.write w = (.error err, e', w') → e'.position = e.position
        ∧ w'.written = w.written ∧ e'.position ≠ e'.encodedLength)
      ∧ (∀ bound, e.work w < bound → writeWithin bound e w = some (e.writeAll w))
      ∧ (∀ res e' w', e.writeAll w = (res, e', w') →
        w'.written
            = before ++ (LittleEndian.ofNat recordHeadSize body.length ++ body).take e'.position
          ∧ (res = .ok () ↔ e'.position = e'.encodedLength))
      ∧ ∀ err e' w', e.writeAll w = (.error err, e', w') → err ≠ .interrupted
        ∧ ∃ earlier a, w.acceptances = earlier ++ a :: w'.acceptances ∧ a.Fails err := by
  have hway := h.underWay
  have hencoded : e.encoded = LittleEndian.ofNat recordHeadSize body.length ++ body :=
    hway.encoded_eq
  refine ⟨⟨?_, hway.position_le, ?_, hway.exhausted_iff⟩, ⟨?_, ?_⟩, ?_, ?_, ?_, ?_, ?_⟩
  · rw [← hencoded]
    exact hway.isSent
  · rw [encodedLength, hway.body_eq]
  · rw [← hencoded]
    exact next_prefix_drop e
  · intro hnil
    refine hway.exhausted_iff.1 (eq_true_of_ne_false fun hleft => ?_)
    have hpos := length_next_pos hleft
    rw [hnil] at hpos
    exact Nat.lt_irrefl 0 hpos
  · intro p e' w' hwrite
    refine ⟨position_of_write_eq_ok hwrite, ?_⟩
    rw [← (hway.write hwrite).exhausted_iff, exhausted_of_write hwrite]
  · intro err e' w' hwrite
    obtain ⟨rfl, hwritten, hleft, -⟩ := write_eq_error hwrite
    refine ⟨rfl, hwritten, ?_⟩
    rw [Ne, ← hway.exhausted_iff, hleft]
    exact Bool.false_ne_true
  · exact fun bound hbound => writeWithin_eq hbound
  · intro res e' w' hwrite
    obtain ⟨hway', hdone⟩ := hway.writeAll hwrite
    have hencoded' : e'.encoded = LittleEndian.ofNat recordHeadSize body.length ++ body :=
      hway'.encoded_eq
    rw [← hencoded', ← hway'.exhausted_iff]
    refine ⟨hway'.isSent, hdone, ?_⟩
    intro hexhausted
    cases res with
    | ok => rfl
    | error err =>
      rw [(writeAll_eq_error hwrite).2.1] at hexhausted
      cases hexhausted
  · intro err e' w' hwrite
    obtain ⟨hne, -, hlast⟩ := writeAll_eq_error hwrite
    exact ⟨hne, hlast⟩

/-- A record of two bytes of which three bytes are written, since the stream refused more. -/
def stalledEncoder : RecordEncoder := { body := [8, 9], position := 3 }

/-- A stream behind the first bytes of a record.  It would take the rest of the length and then break. -/
def stalledWriter : Writer where
  acceptances := [.upTo 6, .failure .broken, .upTo 1]
  written := [5, 2, 0, 0]

theorem reached_stalledWriter : Reached [8, 9] [5] stalledEncoder stalledWriter := by
  have hfirst : Reached [8, 9] [5] stalledEncoder
      ⟨.failure .interrupted :: .upTo 0 :: stalledWriter.acceptances, [5, 2, 0, 0]⟩ :=
    .write (.start ⟨.upTo 3 :: .failure .interrupted :: .upTo 0 :: stalledWriter.acceptances, [5]⟩) rfl
  have hrefused : stalledEncoder.writeAll
      ⟨.failure .interrupted :: .upTo 0 :: stalledWriter.acceptances, [5, 2, 0, 0]⟩
        = (.error .refused, stalledEncoder, stalledWriter) :=
    Option.some.inj ((writeWithin_eq (Nat.lt_succ_self _)).symm.trans rfl)
  exact hfirst.writeAll hrefused

theorem taken_up_to_position_stalledWriter :
    Reached [8, 9] [5] stalledEncoder stalledWriter
      ∧ stalledWriter.written = [5] ++ [2, 0, 0]
      ∧ ∃ e' w', stalledEncoder.writeAll stalledWriter = (.error .broken, e', w') ∧ e'.position = 8
        ∧ w'.written = [5] ++ [2, 0, 0, 0, 0, 0, 0, 0] := by
  obtain ⟨⟨hwritten, -⟩, -, -, -, hwithin, hrun, -⟩ := taken_up_to_position reached_stalledWriter
  have hwrite : stalledEncoder.writeAll stalledWriter
      = (.error .broken, { stalledEncoder with position := 8 },
        ⟨[.upTo 1], [5, 2, 0, 0, 0, 0, 0, 0, 0]⟩) :=
    Option.some.inj ((hwithin 11 (by decide)).symm.trans rfl)
  exact ⟨reached_stalledWriter, hwritten, _, _, hwrite, rfl, (hrun _ _ _ hwrite).1⟩

end RecordEncoder

end OneTimeChannel

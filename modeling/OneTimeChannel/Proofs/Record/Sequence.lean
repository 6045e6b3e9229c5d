/-
  Records one behind the other.

  A sequence of records is written to one stream and read back with one decoder, which is cleared behind
  each record.  Neither stream has to respect the borders of records: a write may stop in the middle of a
  length, a read may bring the end of one body and no more, and both may be interrupted at any point.

  The two ends meet at a byte string, the records one behind the other.  The writer puts exactly this on
  its stream (`writeEach_of_isSteady`), however the stream cuts it.  The reader takes one record off the
  front and leaves what stands behind it (`readAll_ofBuffer`), and clearing the decoder brings back the
  state that it started from, but for what the unused buffer holds.  So the induction on the records
  goes through for every buffer that is long enough, and with anything behind the last record.
-/
import OneTimeChannel.Proofs.Record.Decoder
import OneTimeChannel.Proofs.Record.Encoder
import Mathlib.Algebra.Group.Nat.Defs

namespace OneTimeChannel

/-! ## Writing -/

namespace RecordEncoder

/-- The records with these bodies, one behind the other. -/
def encodedEach (bodies : List Bytes) : Bytes := bodies.flatMap fun body => encoded { body }

/-- Where a byte string ends that starts with so many records. -/
theorem encodedEach_append_inj {bodies bodies' : List Bytes} {rest rest' : Bytes}
    (hcount : bodies.length = bodies'.length) (hlength : ∀ body ∈ bodies, body.length < 2 ^ 64)
    (hlength' : ∀ body ∈ bodies', body.length < 2 ^ 64)
    (h : encodedEach bodies ++ rest = encodedEach bodies' ++ rest') : rest = rest' := by
  induction bodies generalizing bodies' with
  | nil =>
    obtain rfl := List.eq_nil_of_length_eq_zero hcount.symm
    exact h
  | cons body bodies ih =>
    cases bodies' with
    | nil => cases hcount
    | cons body' bodies' =>
      rw [List.forall_mem_cons] at hlength hlength'
      simp only [encodedEach, List.flatMap_cons, List.append_assoc] at h
      exact ih (Nat.succ.inj hcount) hlength.2 hlength'.2
        (encoded_append_inj hlength.1 hlength'.1 h).2

/-- Writes records with these bodies, one behind the other, up to the first that fails. -/
def writeEach : List Bytes → Writer → Except StreamError Unit × Writer
  | [], w => (.ok (), w)
  | body :: bodies, w =>
    match writeAll { body } w with
    | (.ok (), _, w') => writeEach bodies w'
    | (.error e, _, w') => (.error e, w')

/-- A steady stream gets every record, and nothing else. -/
theorem writeEach_of_isSteady (bodies : List Bytes) {w : Writer} (hw : w.IsSteady) :
    ∃ w', writeEach bodies w = (.ok (), w') ∧ w'.IsSteady
      ∧ w'.written = w.written ++ encodedEach bodies := by
  induction bodies generalizing w with
  | nil => exact ⟨w, rfl, hw, (List.append_nil _).symm⟩
  | cons body bodies ih =>
    obtain ⟨e', w₁, hwrite, hw₁⟩ := writeAll_of_isSteady (e := { body }) hw
    obtain ⟨w', hrest, hw', hwritten⟩ := ih hw₁
    refine ⟨w', ?_, hw', ?_⟩
    · rw [writeEach, hwrite]
      exact hrest
    · rw [hwritten, written_of_writeAll hwrite, List.append_assoc]
      rfl

end RecordEncoder

/-! ## Reading -/

namespace RecordDecoder

variable {d d' : RecordDecoder} {r r' : Reader} {buffer body rest : Bytes}

/-- Reads so many records, and clears the decoder behind each. -/
def readEach : Nat → RecordDecoder → Reader → Except RecordError (List Bytes) × RecordDecoder × Reader
  | 0, d, r => (.ok [], d, r)
  | n + 1, d, r =>
    match d.readAll r with
    | (.error e, d', r') => (.error e, d', r')
    | (.ok body, d', r') =>
      match readEach n d'.clear r' with
      | (.error e, d'', r'') => (.error e, d'', r'')
      | (.ok bodies, d'', r'') => (.ok (body :: bodies), d'', r'')

/-- However far reading comes, the buffer keeps its length. -/
theorem capacity_readAll {res : Except RecordError Bytes} (hd : d.InOrder)
    (h : d.readAll r = (res, d', r')) : d'.capacity = d.capacity := by
  have hkeeps : ∀ (d₁ : RecordDecoder) (r₁ : Reader) (res₁ : Except RecordError Progress)
      (d₂ : RecordDecoder) (r₂ : Reader), d₁.InOrder ∧ d₁.capacity = d.capacity →
      d₁.read r₁ = (res₁, d₂, r₂) → d₂.InOrder ∧ d₂.capacity = d.capacity := by
    intro d₁ r₁ res₁ d₂ r₂ ⟨hd₁, hcapacity₁⟩ hstep
    obtain ⟨hd₂, hcapacity₂, -⟩ := pending_read hd₁ hstep
    exact ⟨hd₂, hcapacity₂.trans hcapacity₁⟩
  exact (readAll_keeps (P := fun d' _ => d'.InOrder ∧ d'.capacity = d.capacity) hkeeps ⟨hd, rfl⟩ h).2

/-- A new decoder takes the record at the front of a steady stream, and leaves what stands behind it. -/
theorem readAll_ofBuffer (hfits : body.length ≤ buffer.length) (hlength : body.length < 2 ^ 64)
    (hr : r.IsSteady) (hcontents : r.contents = RecordEncoder.encoded { body } ++ rest) :
    ∃ d' r', (ofBuffer buffer).readAll r = (.ok body, d', r') ∧ d'.capacity = buffer.length
      ∧ r'.IsSteady ∧ r'.contents = rest := by
  obtain ⟨res, d', r', hread⟩ : ∃ res d' r', (ofBuffer buffer).readAll r = (res, d', r') :=
    ⟨_, _, _, rfl⟩
  have hcapacity : d'.capacity = buffer.length := by
    rw [capacity_readAll (inOrder_ofBuffer buffer) hread, capacity_ofBuffer]
  have hfirst : firstRecord (ofBuffer buffer).capacity ((ofBuffer buffer).pending r)
      = .ok (body, rest) := by
    show firstRecord (ofBuffer buffer).capacity r.contents = .ok (body, rest)
    rw [hcontents, firstRecord_encoded hlength, capacity_ofBuffer, if_neg (Nat.not_lt.2 hfits)]
  obtain ⟨hsteady, hrecord⟩ := readAll_of_isSteady (inOrder_ofBuffer buffer) hr hread
  rw [hrecord] at hfirst
  cases res with
  | error e => cases hfirst
  | ok record =>
    cases hfirst
    exact ⟨d', r', hread, hcapacity, hsteady, rfl⟩

/-- Records that were written one behind the other are read one after the other. -/
theorem readEach_of_isSteady {bodies : List Bytes} (hfits : ∀ body ∈ bodies, body.length ≤ buffer.length)
    (hlength : ∀ body ∈ bodies, body.length < 2 ^ 64) (hr : r.IsSteady)
    (hcontents : r.contents = RecordEncoder.encodedEach bodies ++ rest) :
    ∃ d' r', readEach bodies.length (ofBuffer buffer) r = (.ok bodies, d', r') ∧ r'.IsSteady
      ∧ r'.contents = rest := by
  induction bodies generalizing buffer r with
  | nil => exact ⟨ofBuffer buffer, r, rfl, hr, hcontents⟩
  | cons body bodies ih =>
    rw [List.forall_mem_cons] at hfits hlength
    rw [RecordEncoder.encodedEach, List.flatMap_cons, List.append_assoc] at hcontents
    obtain ⟨d₁, r₁, hread, hcapacity, hr₁, hcontents₁⟩ :=
      readAll_ofBuffer hfits.1 hlength.1 hr hcontents
    -- the next record finds a new decoder, whose buffer is as long as the one before
    have hcleared : d₁.clear = ofBuffer (List.replicate buffer.length 0) := by
      rw [clear_eq_ofBuffer, hcapacity]
    have hfits' : ∀ body ∈ bodies, body.length ≤ (List.replicate buffer.length (0 : UInt8)).length := by
      rw [List.length_replicate]
      exact hfits.2
    obtain ⟨d', r', hrest, hr', hcontents'⟩ := ih hfits' hlength.2 hr₁ hcontents₁
    refine ⟨d', r', ?_, hr', hcontents'⟩
    rw [List.length_cons, readEach, hread]
    dsimp only
    rw [hcleared, hrest]

end RecordDecoder

/-! ## Both -/

/-- Any records that fit the buffer of a decoder survive two streams that deliver and accept in any
    pieces and interrupt at any point.  Writing them ends well, and what was written, however it is
    delivered, is read back as the same records; what is delivered behind them is left alone, and if
    nothing is, then nothing is left.  Lengths are those that the head of a record can hold. -/
theorem records_survive_streams {bodies : List Bytes} {buffer : Bytes} {w : Writer}
    (hfits : ∀ body ∈ bodies, body.length ≤ buffer.length)
    (hlength : ∀ body ∈ bodies, body.length < 2 ^ 64) (hw : w.IsSteady) :
    ∃ w', RecordEncoder.writeEach bodies w = (.ok (), w')
      ∧ w'.written = w.written ++ RecordEncoder.encodedEach bodies
      ∧ ∀ (r : Reader) (rest : Bytes), r.IsSteady →
        r.contents = RecordEncoder.encodedEach bodies ++ rest →
        ∃ d' r', RecordDecoder.readEach bodies.length (.ofBuffer buffer) r = (.ok bodies, d', r')
          ∧ r'.contents = rest := by
  obtain ⟨w', hwrite, -, hwritten⟩ := RecordEncoder.writeEach_of_isSteady bodies hw
  refine ⟨w', hwrite, hwritten, ?_⟩
  intro r rest hr hcontents
  obtain ⟨d', r', hread, -, hrest⟩ := RecordDecoder.readEach_of_isSteady hfits hlength hr hcontents
  exact ⟨d', r', hread, hrest⟩

/-- A stream that takes three bytes, then one, then six, and is interrupted in between. -/
def haltingWriter : Writer where
  acceptances := [.upTo 3, .failure .interrupted, .upTo 1, .upTo 6, .failure .interrupted]
  written := [5]

/-- A stream that delivers a record of two bytes, an empty one and a byte more.  It is cut inside the first
    length and inside the second, and between the bytes of the body. -/
def choppyReader : Reader where
  deliveries := [.data [2, 0, 0], .failure .interrupted, .data [0, 0, 0, 0, 0, 8], .data [9, 0, 0],
    .failure .interrupted, .failure .interrupted, .data [0, 0, 0, 0, 0, 0, 7]]

theorem records_survive_streams_choppyReader :
    ∃ w' d' r', RecordEncoder.writeEach [[8, 9], []] haltingWriter = (.ok (), w')
      ∧ w'.written ++ [7] = haltingWriter.written ++ choppyReader.contents
      ∧ RecordDecoder.readEach 2 (.ofBuffer [1, 1]) choppyReader = (.ok [[8, 9], []], d', r')
      ∧ r'.contents = [7] := by
  have hw : haltingWriter.IsSteady := by
    simp [haltingWriter, Writer.IsSteady, Acceptance.IsSteady]
  have hr : choppyReader.IsSteady := by
    simp [choppyReader, Reader.IsSteady, Delivery.IsSteady]
  have hfits : ∀ body ∈ ([[8, 9], []] : List Bytes), body.length ≤ ([1, 1] : Bytes).length := by decide
  have hlength : ∀ body ∈ ([[8, 9], []] : List Bytes), body.length < 2 ^ 64 := by decide
  obtain ⟨w', hwrite, hwritten, hread⟩ := records_survive_streams hfits hlength hw
  have hcontents : choppyReader.contents = RecordEncoder.encodedEach [[8, 9], []] ++ [7] := by
    decide
  obtain ⟨d', r', hrecords, hrest⟩ := hread choppyReader [7] hr hcontents
  refine ⟨w', d', r', hwrite, ?_, hrecords, hrest⟩
  rw [hwritten, hcontents, List.append_assoc]

end OneTimeChannel

/-
  Writing length-prefixed records.

  The encoder holds a record and how much of it a stream has taken.  A call that fails leaves the
  position where the stream stopped, so that the next call goes on there; no byte is offered again
  once it is taken.

  Core only.
-/
import OneTimeChannel.Record.Decoder

namespace OneTimeChannel

/-- A record being written. -/
structure RecordEncoder where
  body : Bytes
  /-- How many bytes of the record were taken. -/
  position : Nat := 0
  deriving DecidableEq, Repr

namespace RecordEncoder

variable (e : RecordEncoder)

/-- The length of the body as it stands in front of it. -/
def head : Bytes := LittleEndian.ofNat recordHeadSize e.body.length

/-- The whole record. -/
def encoded : Bytes := e.head ++ e.body

def encodedLength : Nat := recordHeadSize + e.body.length

/-- The bytes that the next write offers; head and body are offered separately. -/
def next : Bytes :=
  if e.position < recordHeadSize then e.head.drop e.position
  else e.body.drop (e.position - recordHeadSize)

def exhausted : Bool := e.encodedLength ≤ e.position

/-- The same record from the start. -/
def restart : RecordEncoder := { e with position := 0 }

/-- What one write took. -/
structure Progress where
  bytesWritten : Nat
  done : Bool
  deriving DecidableEq, Repr

/-- Writes at most once. -/
def write (w : Writer) : Except StreamError Progress × RecordEncoder × Writer :=
  if e.exhausted then (.ok ⟨0, true⟩, e, w)
  else match w.write e.next with
    | (.error err, w') => (.error err, e, w')
    | (.ok 0, w') => (.error .refused, e, w')
    | (.ok (n + 1), w') =>
      let e' := { e with position := e.position + (n + 1) }
      (.ok ⟨n + 1, e'.exhausted⟩, e', w')

/-- How much is left to be done: answers of the stream and bytes of the record. -/
def work (w : Writer) : Nat := w.acceptances.length + (e.encodedLength - e.position)

variable {e}

theorem length_next_pos (h : e.exhausted = false) : 0 < e.next.length := by
  have hpos : ¬ e.encodedLength ≤ e.position := of_decide_eq_false h
  simp only [encodedLength] at hpos
  unfold next
  split
  · simp only [List.length_drop, head, LittleEndian.length_ofNat]
    omega
  · simp only [List.length_drop]
    omega

/-- A write after which the record is still incomplete leaves less work. -/
theorem work_lt_of_ok {e' : RecordEncoder} {w w' : Writer} {p : Progress}
    (h : e.write w = (.ok p, e', w')) (hp : p.done = false) : e'.work w' < e.work w := by
  unfold write at h
  split at h
  · cases h
    cases hp
  · next hex =>
    have hpos : e.position < e.encodedLength := by
      simpa [exhausted] using hex
    split at h
    · cases h
    · cases h
    · next n w'' hw =>
      obtain ⟨_, rfl, rfl⟩ : _ ∧ { e with position := e.position + (n + 1) } = e' ∧ w'' = w' := by
        simpa using h
      rcases Writer.length_acceptances_write hw with hlen | ⟨_, hlen⟩
      · simp only [work, encodedLength] at *
        omega
      · simp only [work, encodedLength, hlen] at *
        omega

/-- So does an interruption. -/
theorem work_lt_of_interrupted {e' : RecordEncoder} {w w' : Writer}
    (h : e.write w = (.error .interrupted, e', w')) : e'.work w' < e.work w := by
  unfold write at h
  split at h
  · cases h
  · split at h
    · next err w'' hw =>
      obtain ⟨rfl, rfl, rfl⟩ : err = .interrupted ∧ e = e' ∧ w'' = w' := by simpa using h
      rcases Writer.length_acceptances_write hw with hlen | ⟨hres, _⟩
      · simp only [work]
        omega
      · cases hres
    · cases h
    · cases h

/-- Writes until the record is complete, whatever interrupts. -/
def writeAll (e : RecordEncoder) (w : Writer) : Except StreamError Unit × RecordEncoder × Writer :=
  match _h : e.write w with
  | (.ok ⟨_, true⟩, e', w') => (.ok (), e', w')
  | (.ok ⟨_, false⟩, e', w') => writeAll e' w'
  | (.error .interrupted, e', w') => writeAll e' w'
  | (.error err, e', w') => (.error err, e', w')
termination_by e.work w
decreasing_by
  · exact work_lt_of_ok _h rfl
  · exact work_lt_of_interrupted _h

end RecordEncoder

end OneTimeChannel

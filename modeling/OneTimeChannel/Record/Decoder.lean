/-
  Reading length-prefixed records.

  A record is the length of its body, as eight little-endian bytes, and the body.  The decoder
  collects one record from a stream that delivers it in any number of pieces: what has come in is
  kept in the decoder, so after a failure the next call goes on where the stream stopped.  The body
  goes into a buffer of fixed size, and a record that announces more than that is refused before a
  byte of its body is read.

  The buffer is kept as the part that is filled (`body`) and the part that is not (`spare`), so
  `head ++ body` is all that was read since the decoder was last cleared.

  Core only.
-/
import OneTimeChannel.Record.Stream

namespace OneTimeChannel

/-- How many bytes the length of a record takes. -/
def recordHeadSize : Nat := 8

/-- A record that announces a body longer than the buffer. -/
structure RecordTooLarge where
  announced : Nat
  capacity : Nat
  deriving DecidableEq, Repr

def RecordTooLarge.message (e : RecordTooLarge) : String :=
  s!"Message too large ({e.announced} bytes) for buffer ({e.capacity} bytes)"

/-- Why a record was not read. -/
inductive RecordError where
  | stream (e : StreamError)
  | tooLarge (e : RecordTooLarge)
  deriving DecidableEq, Repr

namespace RecordError

/-- The outer line of the error. -/
def message : RecordError → String
  | stream _ => "Error reading from the underlying stream"
  | tooLarge _ => "Message size out of buffer bounds"

def cause : RecordError → String
  | stream e => e.message
  | tooLarge e => e.message

end RecordError

/-- A record being read. -/
structure RecordDecoder where
  /-- The bytes of the length that were read. -/
  head : Bytes := []
  /-- The bytes of the body that were read. -/
  body : Bytes := []
  /-- The part of the buffer behind the body. -/
  spare : Bytes

namespace RecordDecoder

/-- A decoder for bodies that fit the buffer. -/
def ofBuffer (buffer : Bytes) : RecordDecoder where
  spare := buffer

variable (d : RecordDecoder)

def buffer : Bytes := d.body ++ d.spare

def capacity : Nat := d.body.length + d.spare.length

/-- Forgets everything that was read, in the buffer as well. -/
def clear : RecordDecoder where
  spare := List.replicate d.capacity 0

def headComplete : Bool := recordHeadSize ≤ d.head.length

/-- The announced length of the body, once the head is complete. -/
def announced? : Option Nat :=
  if d.headComplete then some (LittleEndian.toNat d.head) else none

/-- The body, once it is complete. -/
def message : Except RecordTooLarge (Option Bytes) :=
  match d.announced? with
  | none => .ok none
  | some n =>
    if n ≤ d.capacity then .ok (if d.body.length = n then some d.body else none)
    else .error ⟨n, d.capacity⟩

/-- How many bytes the next read asks for, or `none` if the record is complete.  A read stops at
    the end of the head, since what follows goes elsewhere. -/
def wanted : Except RecordTooLarge (Option Nat) :=
  match d.announced? with
  | none => .ok (some (recordHeadSize - d.head.length))
  | some n =>
    if n ≤ d.capacity then
      .ok (if d.body.length < n then some (n - d.body.length) else none)
    else .error ⟨n, d.capacity⟩

/-- Puts bytes that were read behind those that came before. -/
def accept (bs : Bytes) : RecordDecoder :=
  if d.headComplete then { d with body := d.body ++ bs, spare := d.spare.drop bs.length }
  else { d with head := d.head ++ bs }

/-- What one read brought. -/
structure Progress where
  bytesRead : Nat
  done : Bool
  deriving DecidableEq, Repr

/-- The outcome of a read that brought `bytesRead` bytes. -/
def progress (bytesRead : Nat) : Except RecordError Progress :=
  match d.message with
  | .error e => .error (.tooLarge e)
  | .ok m =>
    if bytesRead = 0 ∧ m.isNone then .error (.stream .endOfStream)
    else .ok ⟨bytesRead, m.isSome⟩

/-- Reads at most once. -/
def read (r : Reader) : Except RecordError Progress × RecordDecoder × Reader :=
  match d.wanted with
  | .error e => (.error (.tooLarge e), d, r)
  | .ok none => (d.progress 0, d, r)
  | .ok (some n) =>
    match r.read n with
    | (.error e, r') => (.error (.stream e), d, r')
    | (.ok bs, r') => ((d.accept bs).progress bs.length, d.accept bs, r')

theorem bytesRead_of_progress_eq_ok {n : Nat} {p : Progress} (h : d.progress n = .ok p)
    (hp : p.done = false) : n ≠ 0 := by
  unfold progress at h
  split at h
  · cases h
  · next m _ =>
    split at h
    · cases h
    · next hn =>
      cases h
      intro h0
      exact hn ⟨h0, by cases m <;> simp_all⟩

theorem progress_ne_interrupted (n : Nat) : d.progress n ≠ .error (.stream .interrupted) := by
  unfold progress
  split
  · simp
  · split <;> simp

variable {d}

/-- A read after which the record is still incomplete uses up the stream. -/
theorem weight_read_lt_of_ok {d' : RecordDecoder} {r r' : Reader} {p : Progress}
    (h : d.read r = (.ok p, d', r')) (hp : p.done = false) : r'.weight < r.weight := by
  unfold read at h
  split at h
  · cases h
  · obtain ⟨hp', rfl, rfl⟩ : d.progress 0 = .ok p ∧ d = d' ∧ r = r' := by simpa using h
    exact absurd rfl (bytesRead_of_progress_eq_ok d hp' hp)
  · next n hn =>
    split at h
    · cases h
    · next bs r'' hr =>
      obtain ⟨hp', rfl, rfl⟩ : (d.accept bs).progress bs.length = .ok p ∧ d.accept bs = d' ∧
          r'' = r' := by simpa using h
      have hbs := bytesRead_of_progress_eq_ok _ hp' hp
      exact Reader.weight_read_lt hr (by intro e; cases e; simp at hbs)

/-- So does an interruption. -/
theorem weight_read_lt_of_interrupted {d' : RecordDecoder} {r r' : Reader}
    (h : d.read r = (.error (.stream .interrupted), d', r')) : r'.weight < r.weight := by
  unfold read at h
  split at h
  · cases h
  · exact absurd (Prod.mk.inj h).1 (progress_ne_interrupted d 0)
  · split at h
    · next e r'' hr =>
      have hr' : r'' = r' := by simpa using (Prod.mk.inj (Prod.mk.inj h).2).2
      subst hr'
      exact Reader.weight_read_lt hr (by simp)
    · exact absurd (Prod.mk.inj h).1 (progress_ne_interrupted _ _)

/-- Reads until the record is complete, whatever interrupts. -/
def readAll (d : RecordDecoder) (r : Reader) : Except RecordError Bytes × RecordDecoder × Reader :=
  match _h : d.read r with
  | (.ok ⟨_, true⟩, d', r') =>
    match d'.message with
    | .ok m => (.ok (m.getD []), d', r')
    | .error e => (.error (.tooLarge e), d', r')
  | (.ok ⟨_, false⟩, d', r') => readAll d' r'
  | (.error (.stream .interrupted), d', r') => readAll d' r'
  | (.error e, d', r') => (.error e, d', r')
termination_by r.weight
decreasing_by
  · exact weight_read_lt_of_ok _h rfl
  · exact weight_read_lt_of_interrupted _h

end RecordDecoder

end OneTimeChannel

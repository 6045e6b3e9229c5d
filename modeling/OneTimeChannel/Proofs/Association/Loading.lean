/-
  What loading an association takes for one.

  An association is loaded from any byte string that somebody hands over, in whatever pieces.  On streams
  that only interrupt, the pieces do not matter: reading a place is a function of the bytes that the stream
  will deliver (`contextIn`), and so is reading four places one behind the other (`reads_load`).  Beside the
  result, this says what is left of the stream.

  The byte strings that are accepted are those that start with the records of four texts, each of them
  short enough, in UTF-8, and the description of a context (`associationIn_eq_ok_iff`).
-/
import OneTimeChannel.Association.Basic
import OneTimeChannel.Proofs.Record.Decoder
import OneTimeChannel.Proofs.Text.Utf8

namespace OneTimeChannel.Association

variable {a : Association} {r : Reader} {bytes rest : Bytes} {c : Context}

/-! ## Loading from byte strings -/

/-- The context that the record at the front of a byte string describes, and what stands behind it. -/
def contextIn (slot : Slot) : StateT Bytes (Except LoadError) Context := fun bytes =>
  match firstRecord maxStoredScheme bytes with
  | .error cause => .error (.reading slot cause)
  | .ok (record, rest) =>
    match Utf8.decode record with
    | .error cause => .error (.notText cause)
    | .ok text =>
      match Context.create text with
      | .error cause => .error (.restoring slot cause)
      | .ok c => .ok (c, rest)

/-- The association at the front of a byte string, and what stands behind it. -/
def associationIn (bytes : Bytes) : Except LoadError (Association × Bytes) :=
  (Slots.ofFnM contextIn : StateT Bytes (Except LoadError) Association) bytes

/-- The one does with a steady stream what the other does with the bytes that it delivers. -/
def Reads {α : Type} (load : StateT Reader (Except LoadError) α)
    (parse : StateT Bytes (Except LoadError) α) : Prop :=
  ∀ r, r.IsSteady → parse r.contents = (load r).map (fun p => (p.1, p.2.contents))
    ∧ ∀ x r', load r = .ok (x, r') → r'.IsSteady

theorem reads_pure {α : Type} (x : α) : Reads (pure x) (pure x) := by
  intro r hr
  refine ⟨rfl, ?_⟩
  rintro y r' ⟨⟩
  exact hr

theorem Reads.bind {α β : Type} {load : StateT Reader (Except LoadError) α}
    {parse : StateT Bytes (Except LoadError) α} {load' : α → StateT Reader (Except LoadError) β}
    {parse' : α → StateT Bytes (Except LoadError) β} (h : Reads load parse)
    (h' : ∀ x, Reads (load' x) (parse' x)) : Reads (load >>= load') (parse >>= parse') := by
  intro r hr
  obtain ⟨hparse, hsteady⟩ := h r hr
  have hload : (load >>= load') r = match load r with
      | .ok (x, r') => load' x r'
      | .error e => .error e := by
    show (load r >>= fun p => load' p.1 p.2) = _
    cases load r <;> rfl
  have hparse' : (parse >>= parse') r.contents = match load r with
      | .ok (x, r') => parse' x r'.contents
      | .error e => .error e := by
    show (parse r.contents >>= fun p => parse' p.1 p.2) = _
    rw [hparse]
    cases load r <;> rfl
  rw [hload, hparse']
  cases hresult : load r with
  | error e =>
    refine ⟨rfl, ?_⟩
    rintro x r' ⟨⟩
  | ok p => exact h' p.1 p.2 (hsteady p.1 p.2 hresult)

/-- What is read of a place is the record at the front of the stream. -/
theorem firstRecord_of_readAll {res : Except RecordError Bytes} {d : RecordDecoder} {r' : Reader}
    (hr : r.IsSteady)
    (h : (RecordDecoder.ofBuffer (List.replicate maxStoredScheme 0)).readAll r = (res, d, r')) :
    r'.IsSteady ∧ firstRecord maxStoredScheme r.contents
      = res.map fun record => (record, r'.contents) := by
  have hrecord := RecordDecoder.readAll_of_isSteady (RecordDecoder.inOrder_ofBuffer _) hr h
  have hcapacity : (RecordDecoder.ofBuffer (List.replicate maxStoredScheme 0)).capacity
      = maxStoredScheme := by
    rw [RecordDecoder.capacity_ofBuffer, List.length_replicate]
  rw [hcapacity] at hrecord
  exact hrecord

theorem reads_loadContext (slot : Slot) : Reads (loadContext slot) (contextIn slot) := by
  intro r hr
  rw [loadContext, contextIn]
  rcases hread : (RecordDecoder.ofBuffer (List.replicate maxStoredScheme 0)).readAll r
    with ⟨cause | record, d, r'⟩
  · rw [(firstRecord_of_readAll hr hread).2]
    refine ⟨rfl, ?_⟩
    rintro x r'' ⟨⟩
  · obtain ⟨hr', hrecord⟩ := firstRecord_of_readAll hr hread
    rw [hrecord]
    dsimp only [Except.map]
    cases Utf8.decode record with
    | error cause =>
      refine ⟨rfl, ?_⟩
      rintro x r'' ⟨⟩
    | ok text =>
      dsimp only
      cases Context.create text with
      | error cause =>
        refine ⟨rfl, ?_⟩
        rintro x r'' ⟨⟩
      | ok c =>
        refine ⟨rfl, ?_⟩
        rintro x r'' ⟨⟩
        exact hr'

/-- An association is loaded as the byte string that the stream delivers. -/
theorem reads_load : Reads load associationIn :=
  (reads_loadContext _).bind fun _ => (reads_loadContext _).bind fun _ =>
    (reads_loadContext _).bind fun _ => (reads_loadContext _).bind fun _ => reads_pure _

/-! ## What is accepted -/

/-- The record of a text: its length, in eight bytes, and the text. -/
def textRecord (text : String) : Bytes :=
  LittleEndian.ofNat recordHeadSize (Utf8.encode text).length ++ Utf8.encode text

/-- The byte string starts with the records of four texts, of no more bytes than are stored, that describe
    the contexts of the association in their order. -/
def StartsWith (bytes : Bytes) (a : Association) (rest : Bytes) : Prop :=
  ∃ texts : Slots String, bytes = (Slot.all.flatMap fun slot => textRecord (texts.get slot)) ++ rest
    ∧ ∀ slot, (Utf8.encode (texts.get slot)).length ≤ maxStoredScheme
      ∧ Context.create (texts.get slot) = .ok (a.get slot)

theorem contextIn_eq_ok_iff {slot : Slot} :
    contextIn slot bytes = .ok (c, rest) ↔ ∃ text, bytes = textRecord text ++ rest
      ∧ (Utf8.encode text).length ≤ maxStoredScheme ∧ Context.create text = .ok c := by
  have hstored : maxStoredScheme < 1 <<< 64 := by decide
  rw [contextIn]
  constructor
  · intro h
    split at h
    · cases h
    next record rest' hfirst =>
    split at h
    · cases h
    next text htext =>
    split at h
    · cases h
    next c' hcreate =>
    cases h
    obtain ⟨hbytes, hlength⟩ := (firstRecord_eq_ok_iff hstored).1 hfirst
    rw [Utf8.decode_eq_ok_iff] at htext
    subst htext
    exact ⟨text, hbytes, hlength, hcreate⟩
  · rintro ⟨text, hbytes, hlength, hcreate⟩
    have hfirst : firstRecord maxStoredScheme bytes = .ok (Utf8.encode text, rest) :=
      (firstRecord_eq_ok_iff hstored).2 ⟨hbytes, hlength⟩
    rw [hfirst]
    dsimp only
    rw [Utf8.decode_encode]
    dsimp only
    rw [hcreate]

/-- One record is taken off the front, and the others are looked for behind it. -/
theorem bind_contextIn_eq_ok_iff {α : Type} {slot : Slot} {next : Context → StateT Bytes (Except LoadError) α}
    {x : α} :
    (contextIn slot >>= next) bytes = .ok (x, rest) ↔ ∃ text c behind, bytes = textRecord text ++ behind
      ∧ ((Utf8.encode text).length ≤ maxStoredScheme ∧ Context.create text = .ok c)
      ∧ next c behind = .ok (x, rest) := by
  have hbind : (contextIn slot >>= next) bytes = match contextIn slot bytes with
      | .ok (c, behind) => next c behind
      | .error e => .error e := by
    show (contextIn slot bytes >>= fun p => next p.1 p.2) = _
    cases contextIn slot bytes <;> rfl
  rw [hbind]
  constructor
  · intro h
    split at h
    · next c behind hcontext =>
      obtain ⟨text, hbytes, htext⟩ := contextIn_eq_ok_iff.1 hcontext
      exact ⟨text, c, behind, hbytes, htext, h⟩
    · cases h
  · rintro ⟨text, c, behind, hbytes, htext, h⟩
    rw [contextIn_eq_ok_iff.2 ⟨text, hbytes, htext⟩]
    exact h

theorem flatMap_all {α : Type} (f : Slot → List α) : Slot.all.flatMap f = f .authenticationIncoming
    ++ (f .authenticationOutgoing ++ (f .encryptionIncoming ++ f .encryptionOutgoing)) := by
  simp only [Slot.all, List.flatMap_cons, List.flatMap_nil, List.append_nil]

theorem associationIn_eq_ok_iff :
    associationIn bytes = .ok (a, rest) ↔ StartsWith bytes a rest := by
  rw [associationIn, Slots.ofFnM, StartsWith]
  simp only [bind_contextIn_eq_ok_iff, flatMap_all, List.append_assoc]
  constructor
  · rintro ⟨t₁, c₁, b₁, rfl, h₁, t₂, c₂, b₂, rfl, h₂, t₃, c₃, b₃, rfl, h₃, t₄, c₄, b₄, rfl, h₄, hend⟩
    cases hend
    refine ⟨⟨t₁, t₂, t₃, t₄⟩, rfl, fun slot => ?_⟩
    cases slot with
    | authenticationIncoming => exact h₁
    | authenticationOutgoing => exact h₂
    | encryptionIncoming => exact h₃
    | encryptionOutgoing => exact h₄
  · rintro ⟨texts, rfl, htexts⟩
    exact ⟨_, _, _, rfl, htexts .authenticationIncoming, _, _, _, rfl, htexts .authenticationOutgoing,
      _, _, _, rfl, htexts .encryptionIncoming, _, _, _, rfl, htexts .encryptionOutgoing, rfl⟩

/-! ## Loading from streams -/

theorem load_eq_ok_iff (hr : r.IsSteady) :
    (∃ r', load r = .ok (a, r') ∧ r'.contents = rest) ↔ StartsWith r.contents a rest := by
  rw [← associationIn_eq_ok_iff, (reads_load r hr).1]
  cases load r with
  | error e => simp [Except.map]
  | ok p =>
    constructor
    · rintro ⟨r', ⟨⟩, rfl⟩
      rfl
    · rintro ⟨⟩
      exact ⟨p.2, rfl, rfl⟩

end OneTimeChannel.Association

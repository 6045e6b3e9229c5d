/-
  Associations that are stored and loaded.

  What an association writes are four records, one text behind the other (`written_of_store`), and a
  stream that starts with four records is loaded (`load_eq_ok_iff`).  Each text describes a context with
  the same text, so the loaded association has the definition of the stored one (`load_of_fits`).

  Writing knows no bound and reading does: a text of more than `maxStoredScheme` bytes is stored and then
  refused (`load_of_not_fits`).  Hashes stay far below that, but the text of a pad grows with the data that
  waits for a key, so the bound is met by pads with less than 500 bytes (`fits_of_short_pad`) and broken by
  those with 510 bytes that were added (`not_fits_of_pad`).

  Records are found in a byte string in one way only (`RecordEncoder.encodedEach_append_inj`), so of what was
  stored nothing can be cut off (`load_of_cut`).
-/
import Mathlib.Tactic.Choose
import OneTimeChannel.Proofs.Association.Loading
import OneTimeChannel.Proofs.Cipher.SchemeText
import OneTimeChannel.Proofs.Record.Sequence

namespace OneTimeChannel

/-! ## Texts that are read back -/

namespace Context

/-- The text of the context is read back from where it is stored. -/
def Fits (c : Context) : Prop := c.text.length ≤ Association.maxStoredScheme

instance (c : Context) : Decidable c.Fits := Nat.decLe _ _

/-- The context as it is stored. -/
def record (c : Context) : Bytes := RecordEncoder.encoded { body := c.text }

variable {c : Context}

theorem fits_of_short_pad (hpad : ∀ data, c.algorithm = .pad data → data.length < 500) : c.Fits := by
  by_cases h : ∃ data, c.algorithm = .pad data
  · obtain ⟨data, hdata⟩ := h
    have htext := length_text_le_of_pad hdata
    have hlength := hpad data hdata
    show c.text.length ≤ 1024
    omega
  · have htext := length_text_le_of_not_pad (not_exists.1 h)
    show c.text.length ≤ 1024
    omega

theorem not_fits_of_pad {data : Bytes} (hdata : c.algorithm = .pad data) (hblocks : c.blocks ≠ 0)
    (hlength : 510 ≤ data.length) : ¬ c.Fits := by
  have htext := length_text_of_pad hdata hblocks
  show ¬ c.text.length ≤ 1024
  omega

end Context

namespace Association

variable {a : Association} {w w' : Writer} {r : Reader} {rest : Bytes}

/-- The associations that come about by making one from a definition and working with its contexts. -/
inductive Reachable : Association → Prop where
  | ofDefinition {d : AssociationDefinition} {a : Association} (h : ofDefinition d = .ok a) :
    Reachable a
  | add {a : Association} {slot : Slot} {data : Bytes} {c : Context} (ha : Reachable a)
    (h : (a.get slot).add data = .ok c) : Reachable (a.set slot c)
  | finalize {a : Association} {slot : Slot} {key : Key} {c : Context} {out : Bytes}
    (ha : Reachable a) (h : (a.get slot).finalize key = .ok (c, out)) : Reachable (a.set slot c)
  | replace {a : Association} {slot : Slot} {c : Context} (ha : Reachable a)
    (hc : Context.Reachable c) : Reachable (a.set slot c)

/-! ## Storing -/

/-- Records of places are written one behind the other. -/
theorem written_of_storeSlots {slots : List Slot} (h : a.storeSlots slots w = (.ok (), w')) :
    w'.written = w.written ++ slots.flatMap fun slot => (a.get slot).record := by
  induction slots generalizing w with
  | nil =>
    cases h
    exact (List.append_nil _).symm
  | cons slot slots ih =>
    rw [storeSlots] at h
    split at h
    · next hwrite =>
      rw [ih h, RecordEncoder.written_of_writeAll hwrite, List.flatMap_cons, List.append_assoc]
      rfl
    · cases h

theorem written_of_store (h : a.store w = (.ok (), w')) :
    w'.written = w.written ++ Slot.all.flatMap fun slot => (a.get slot).record :=
  written_of_storeSlots h

theorem written_ne_nil_of_store (h : a.store w = (.ok (), w')) : w'.written ≠ [] := by
  rw [written_of_store h, ← List.length_pos_iff]
  simp only [Slot.all, List.flatMap_cons, List.length_append, Context.record,
    RecordEncoder.length_encoded, RecordEncoder.encodedLength, recordHeadSize]
  omega

theorem storeSlots_of_isSteady (hw : w.IsSteady) (slots : List Slot) :
    ∃ w', a.storeSlots slots w = (.ok (), w') := by
  induction slots generalizing w with
  | nil => exact ⟨w, rfl⟩
  | cons slot slots ih =>
    obtain ⟨e', w₁, hwrite, hw₁⟩ :=
      RecordEncoder.writeAll_of_isSteady (e := { body := (a.get slot).text }) hw
    obtain ⟨w', hrest⟩ := ih hw₁
    refine ⟨w', ?_⟩
    rw [Context.text] at hwrite
    rw [storeSlots, hwrite]
    exact hrest

/-- Every association can be stored, however long its texts. -/
theorem exists_store (a : Association) (hw : w.IsSteady) : ∃ w', a.store w = (.ok (), w') :=
  storeSlots_of_isSteady hw Slot.all

/-! ## Loading -/

/-- The record of a context that fits is taken for a context with the same text. -/
theorem exists_contextIn_record (slot : Slot) {c : Context} (hfits : c.Fits) (rest : Bytes) :
    ∃ c', contextIn slot (c.record ++ rest) = .ok (c', rest) := by
  obtain ⟨c', hcreate, -⟩ := c.create_render_scheme
  exact ⟨c', contextIn_eq_ok_iff.2 ⟨c.scheme.render, rfl, hfits, hcreate⟩⟩

/-- The record of a context that does not fit is refused for its length. -/
theorem contextIn_record_of_not_fits (slot : Slot) {c : Context} (hfits : ¬ c.Fits)
    (hlength : c.text.length < 1 <<< 64) (rest : Bytes) :
    contextIn slot (c.record ++ rest)
      = .error (.reading slot (.tooLarge ⟨c.text.length, maxStoredScheme⟩)) := by
  have hfirst : firstRecord maxStoredScheme (c.record ++ rest)
      = .error (.tooLarge ⟨c.text.length, maxStoredScheme⟩) := by
    rw [Context.record, firstRecord_encoded hlength, if_pos (Nat.not_le.1 hfits)]
  rw [contextIn, hfirst]

/-- The first place that does not fit is where loading stops. -/
theorem mapM_contextIn_of_not_fits {before : List Slot} {slot : Slot} (after : List Slot)
    (hbefore : ∀ slot ∈ before, (a.get slot).Fits) (hslot : ¬ (a.get slot).Fits)
    (hlength : (a.get slot).text.length < 1 <<< 64) (rest : Bytes) :
    (before ++ slot :: after).mapM contextIn
        (((before ++ slot :: after).flatMap fun slot => (a.get slot).record) ++ rest)
      = .error (.reading slot (.tooLarge ⟨(a.get slot).text.length, maxStoredScheme⟩)) := by
  induction before with
  | nil =>
    rw [List.nil_append, List.flatMap_cons, List.append_assoc]
    simp only [List.mapM_cons, bind, StateT.bind, contextIn_record_of_not_fits slot hslot hlength,
      Except.bind]
  | cons first before ih =>
    rw [List.forall_mem_cons] at hbefore
    obtain ⟨c, hfirst⟩ := exists_contextIn_record first hbefore.1
      (((before ++ slot :: after).flatMap fun slot => (a.get slot).record) ++ rest)
    rw [List.cons_append, List.flatMap_cons, List.append_assoc]
    simp only [List.mapM_cons, bind, StateT.bind, hfirst, Except.bind, ih hbefore.2]

/-- Places are looked for in their order. -/
theorem map_toList_associationIn (bytes : Bytes) :
    (associationIn bytes).map (fun p => (p.1.toList, p.2)) = Slot.all.mapM contextIn bytes := by
  have hvisit : Slots.toList <$> (Slots.ofFnM contextIn : StateT Bytes (Except LoadError) Association)
      = Slot.all.mapM contextIn := by
    simp [Slots.ofFnM, Slot.all, Slots.toList, Slots.get]
  rw [← hvisit]
  rfl

/-- An association whose texts fit is loaded with the definition that it was stored with. -/
theorem load_of_fits (hfits : ∀ slot, (a.get slot).Fits) (hr : r.IsSteady)
    (hcontents : r.contents = (Slot.all.flatMap fun slot => (a.get slot).record) ++ rest) :
    ∃ a' r', load r = .ok (a', r') ∧ a'.definition = a.definition ∧ r'.IsSteady
      ∧ r'.contents = rest := by
  choose contexts hcreate hscheme using fun slot => (a.get slot).create_render_scheme
  have hstarts : StartsWith r.contents (Slots.ofFn contexts) rest := by
    refine ⟨a.definition, hcontents, fun slot => ?_⟩
    rw [definition, Slots.get_map, Slots.get_ofFn]
    exact ⟨hfits slot, hcreate slot⟩
  obtain ⟨r', hload, hrest⟩ := (load_eq_ok_iff hr).2 hstarts
  refine ⟨_, r', hload, ?_, (reads_load r hr).2 _ _ hload, hrest⟩
  rw [definition, definition, Slots.map, Slots.map]
  refine congrArg Slots.ofFn (funext fun slot => ?_)
  rw [Slots.get_ofFn, hscheme]

/-- An association with a text that does not fit is not loaded. -/
theorem load_of_not_fits {slot : Slot}
    (hfirst : Slot.all.find? (fun slot => !decide (a.get slot).Fits) = some slot)
    (hlength : (a.get slot).text.length < 1 <<< 64) (hr : r.IsSteady)
    (hcontents : r.contents = (Slot.all.flatMap fun slot => (a.get slot).record) ++ rest) :
    load r = .error (.reading slot (.tooLarge ⟨(a.get slot).text.length, maxStoredScheme⟩)) := by
  obtain ⟨hslot, before, after, hall, hbefore⟩ := List.find?_eq_some_iff_append.1 hfirst
  have hrefused := mapM_contextIn_of_not_fits after (by simpa using hbefore) (by simpa using hslot)
    hlength rest
  rw [← hall, ← hcontents, ← map_toList_associationIn, (reads_load r hr).1] at hrefused
  cases h : load r with
  | error e =>
    rw [h] at hrefused
    cases hrefused
    rfl
  | ok p =>
    rw [h] at hrefused
    cases hrefused

/-- What was stored is loaded with the same definition if every text fits, and refused for the first one
    that does not.  Texts of contexts without data fit, and those of pads up to 499 bytes; a pad to which
    510 bytes were added has a text that does not. -/
theorem load_store (hstore : a.store w = (.ok (), w')) (hr : r.IsSteady)
    (hread : w'.written = w.written ++ r.contents) :
    ((∀ slot, (a.get slot).Fits) → ∃ a' r', load r = .ok (a', r') ∧ a'.definition = a.definition
        ∧ r'.contents = [])
      ∧ (∀ slot, Slot.all.find? (fun slot => !decide (a.get slot).Fits) = some slot →
          (a.get slot).text.length < 1 <<< 64 →
          load r = .error (.reading slot (.tooLarge ⟨(a.get slot).text.length, maxStoredScheme⟩)))
      ∧ ∀ slot, ((∀ data, (a.get slot).algorithm = .pad data → data.length < 500) →
            (a.get slot).Fits)
          ∧ ∀ data, (a.get slot).algorithm = .pad data → (a.get slot).blocks ≠ 0 →
            510 ≤ data.length → ¬ (a.get slot).Fits := by
  have hcontents : r.contents = (Slot.all.flatMap fun slot => (a.get slot).record) ++ [] := by
    rw [written_of_store hstore] at hread
    rw [List.append_nil, List.append_cancel_left hread]
  refine ⟨?_, ?_, ?_⟩
  · intro hfits
    obtain ⟨a', r', hload, hdefinition, -, hend⟩ := load_of_fits hfits hr hcontents
    exact ⟨a', r', hload, hdefinition, hend⟩
  · intro slot hfirst hlength
    exact load_of_not_fits hfirst hlength hr hcontents
  · intro slot
    exact ⟨Context.fits_of_short_pad, fun data hdata hblocks hlength =>
      Context.not_fits_of_pad hdata hblocks hlength⟩

/-- An association that does nothing but hold `n` bytes that wait for a key. -/
def padOf (n : Nat) : Association :=
  { Slots.replicate { algorithm := .null } with
    encryptionOutgoing := { algorithm := .pad (List.replicate n 0x2a), blocks := UInt64.ofNat n } }

/-- It comes about by adding the bytes to a pad that was made without any. -/
theorem reachable_padOf (n : Nat) : Reachable (padOf n) := by
  have hnew : Reachable (padOf 0) := by
    refine .ofDefinition (d := { AssociationDefinition.null with encryptionOutgoing := "xor" }) ?_
    rfl
  have hadd : ((padOf 0).get .encryptionOutgoing).add (List.replicate n 0x2a)
      = .ok ((padOf n).get .encryptionOutgoing) := by
    show Context.add { algorithm := .pad [] } (List.replicate n 0x2a)
      = .ok { algorithm := .pad (List.replicate n 0x2a), blocks := UInt64.ofNat n }
    rw [Context.add_eq rfl, Context.absorbed, Algorithm.absorbed, Algorithm.blockCount,
      List.length_replicate, List.nil_append, UInt64.zero_add]
  exact hnew.add hadd

theorem fits_padOf {n : Nat} {slot : Slot} (h : slot ≠ .encryptionOutgoing ∨ n < 500) :
    ((padOf n).get slot).Fits := by
  apply Context.fits_of_short_pad
  cases slot <;> rintro data ⟨⟩
  rw [List.length_replicate]
  exact h.resolve_left (fun hne => hne rfl)

theorem length_text_padOf : ((padOf 600).get .encryptionOutgoing).text.length = 1209 := by
  have hdigits : (Decimal.digits 600).length = 3 := by simp [Decimal.digits]
  rw [Context.length_text_of_pad rfl (by decide), List.length_replicate]
  show 2 * 600 + (Decimal.digits 600).length + 6 = 1209
  rw [hdigits]

/-- With 600 bytes it is the last text that does not fit. -/
theorem find?_padOf :
    Slot.all.find? (fun slot => !decide ((padOf 600).get slot).Fits) = some .encryptionOutgoing := by
  have hpad : ¬ ((padOf 600).get .encryptionOutgoing).Fits := by
    rw [Context.Fits, length_text_padOf]
    decide
  have hother : ∀ slot ≠ .encryptionOutgoing, ((padOf 600).get slot).Fits :=
    fun slot hslot => fits_padOf (Or.inl hslot)
  simp [Slot.all, hpad, hother]

/-- A stream that takes three bytes first, and only when it is asked again. -/
def slowWriter : Writer := ⟨[.failure .interrupted, .upTo 3], []⟩

theorem isSteady_slowWriter : slowWriter.IsSteady := by
  intro answer hanswer
  rcases List.mem_cons.1 hanswer with rfl | hanswer
  · rfl
  · rw [List.mem_singleton.1 hanswer]
    exact Nat.succ_pos 2

theorem load_store_padOf :
    (∃ w' a' r', (padOf 400).store slowWriter = (.ok (), w')
        ∧ load (.ofBytes w'.written) = .ok (a', r') ∧ a'.definition = (padOf 400).definition)
      ∧ ∃ w', (padOf 600).store slowWriter = (.ok (), w') ∧ load (.ofBytes w'.written)
        = .error (.reading .encryptionOutgoing (.tooLarge ⟨1209, maxStoredScheme⟩)) := by
  constructor
  · obtain ⟨w', hstore⟩ := (padOf 400).exists_store isSteady_slowWriter
    have hr := Reader.isSteady_ofBytes (written_ne_nil_of_store hstore)
    have hload := (load_store hstore hr (Reader.contents_ofBytes _).symm).1
    obtain ⟨a', r', hload, hdefinition, -⟩ := hload fun slot => fits_padOf (Or.inr (by decide))
    exact ⟨w', a', r', hstore, hload, hdefinition⟩
  · obtain ⟨w', hstore⟩ := (padOf 600).exists_store isSteady_slowWriter
    have hr := Reader.isSteady_ofBytes (written_ne_nil_of_store hstore)
    have hload := (load_store hstore hr (Reader.contents_ofBytes _).symm).2.1 _ find?_padOf
    rw [length_text_padOf] at hload
    exact ⟨w', hstore, hload (by decide)⟩

/-- So not everything that is stored can be loaded. -/
theorem not_loaded_padOf :
    ¬ ∀ a, Reachable a → ∀ w', a.store ⟨[], []⟩ = (.ok (), w') →
      ∃ a' r', load (.ofBytes w'.written) = .ok (a', r') ∧ a'.definition = a.definition := by
  intro h
  have hw : Writer.IsSteady ⟨[], []⟩ := fun _ hanswer => nomatch hanswer
  obtain ⟨w', hstore⟩ := (padOf 600).exists_store hw
  obtain ⟨a', r', hload, -⟩ := h _ (reachable_padOf 600) w' hstore
  have hcontents : (Reader.ofBytes w'.written).contents
      = (Slot.all.flatMap fun slot => ((padOf 600).get slot).record) ++ [] := by
    rw [Reader.contents_ofBytes, List.append_nil]
    exact (written_of_store hstore).trans (List.nil_append _)
  have hlength : ((padOf 600).get .encryptionOutgoing).text.length < 1 <<< 64 := by
    rw [length_text_padOf]
    decide
  rw [load_of_not_fits find?_padOf hlength
    (Reader.isSteady_ofBytes (written_ne_nil_of_store hstore)) hcontents] at hload
  cases hload

/-! ## Parts of what was stored -/

/-- What was stored is no longer taken for an association when a part at its end is cut off. -/
theorem load_of_cut {cut : Bytes} (hr : r.IsSteady) (hstore : a.store w = (.ok (), w'))
    (hlength : ∀ slot, (a.get slot).text.length < 2 ^ 64)
    (hcut : cut ≠ []) (hwritten : w'.written = w.written ++ (r.contents ++ cut)) :
    ∃ e, load r = .error e := by
  cases hload : load r with
  | error e => exact ⟨e, rfl⟩
  | ok p =>
    obtain ⟨texts, hbytes, htexts⟩ := (load_eq_ok_iff hr).1 ⟨p.2, hload, rfl⟩
    -- what was stored starts with four records, and so does what is left of it
    have hrecords : RecordEncoder.encodedEach (Slot.all.map fun slot => (a.get slot).text) ++ []
        = RecordEncoder.encodedEach (Slot.all.map fun slot => Utf8.encode (texts.get slot))
          ++ (p.2.contents ++ cut) := by
      rw [written_of_store hstore] at hwritten
      have h := List.append_cancel_left hwritten
      rw [hbytes, List.append_assoc] at h
      rw [RecordEncoder.encodedEach, RecordEncoder.encodedEach, List.flatMap_map, List.flatMap_map,
        List.append_nil]
      exact h
    have hbodies : ∀ body ∈ Slot.all.map (fun slot => (a.get slot).text), body.length < 2 ^ 64 :=
      List.forall_mem_map.2 fun slot _ => hlength slot
    have hbodies' : ∀ body ∈ Slot.all.map (fun slot => Utf8.encode (texts.get slot)),
        body.length < 2 ^ 64 :=
      List.forall_mem_map.2 fun slot _ => Nat.lt_of_le_of_lt (htexts slot).1 (by decide)
    have hnil := RecordEncoder.encodedEach_append_inj (by simp) hbodies hbodies' hrecords
    exact absurd (List.append_eq_nil_iff.1 hnil.symm).2 hcut

/-- Whatever the pieces in which a stream delivers its bytes: an association is loaded exactly if they
    start with the records of four texts that describe its contexts, and what stands behind these records
    is left in the stream.  Two streams with the same bytes are loaded with the same result, which may
    be a failure.  Of what was stored, every proper prefix is refused.  Lengths are those that the head
    of a record can hold. -/
theorem load_depends_on_bytes (hr : r.IsSteady) :
    (∀ a rest, (∃ r', load r = .ok (a, r') ∧ r'.contents = rest) ↔ StartsWith r.contents a rest)
      ∧ (∀ r₂ : Reader, r₂.IsSteady → r₂.contents = r.contents →
        (load r₂).map (fun p => (p.1, p.2.contents)) = (load r).map fun p => (p.1, p.2.contents))
      ∧ ∀ (a : Association) (w w' : Writer) (cut : Bytes), a.store w = (.ok (), w') →
        (∀ slot, (a.get slot).text.length < 2 ^ 64) → cut ≠ [] →
        w'.written = w.written ++ (r.contents ++ cut) → ∃ e, load r = .error e := by
  refine ⟨fun a rest => load_eq_ok_iff hr, ?_, ?_⟩
  · intro r₂ hr₂ hsame
    rw [← (reads_load r₂ hr₂).1, ← (reads_load r hr).1, hsame]
  · intro a w w' cut hstore hlength hcut hwritten
    exact load_of_cut hr hstore hlength hcut hwritten

/-- The record of a context that does nothing. -/
def nullRecord : Bytes := [4, 0, 0, 0, 0, 0, 0, 0, 110, 117, 108, 108]

/-- A stream that delivers four of them and a byte more.  It is cut inside a length and inside a text, and
    interrupts. -/
def nullReader : Reader where
  deliveries := [.data [4, 0, 0], .failure .interrupted, .data [0, 0, 0, 0, 0, 110],
    .failure .interrupted, .failure .interrupted, .data [117, 108, 108], .data nullRecord,
    .data (nullRecord ++ nullRecord ++ [7])]

/-- The association whose contexts do nothing. -/
def nullAssociation : Association := .replicate { algorithm := .null }

theorem encode_null : Utf8.encode "null" = [110, 117, 108, 108] := Utf8.encode_ofList _

theorem textRecord_null : textRecord "null" = nullRecord := by
  rw [textRecord, encode_null]
  rfl

theorem text_nullAssociation (slot : Slot) :
    (nullAssociation.get slot).text = [110, 117, 108, 108] := by
  cases slot <;> exact encode_null

/-- The bytes that the association is stored as, without the last. -/
def cutReader : Reader := .ofBytes (nullRecord ++ nullRecord ++ nullRecord ++ nullRecord.dropLast)

theorem load_depends_on_bytes_nullReader :
    (∃ r', load nullReader = .ok (nullAssociation, r') ∧ r'.contents = [7])
      ∧ (load (.ofBytes (nullRecord ++ nullRecord ++ nullRecord ++ nullRecord ++ [7]))).map
          (fun p => (p.1, p.2.contents)) = (load nullReader).map (fun p => (p.1, p.2.contents))
      ∧ ∃ e, load cutReader = .error e := by
  have hnull : nullReader.IsSteady := by
    simp [nullReader, nullRecord, Reader.IsSteady, Delivery.IsSteady]
  have hcut : cutReader.IsSteady := Reader.isSteady_ofBytes (by decide)
  have hstarts : StartsWith nullReader.contents nullAssociation [7] := by
    refine ⟨.replicate "null", ?_, ?_⟩
    · rw [flatMap_all]
      simp only [Slots.replicate, Slots.get_ofFn, textRecord_null]
      decide
    · intro slot
      have hlength : (Utf8.encode "null").length ≤ maxStoredScheme := by
        rw [encode_null]
        decide
      cases slot <;> exact ⟨hlength, rfl⟩
  obtain ⟨w', hstore⟩ := exists_store nullAssociation isSteady_slowWriter
  have hlength : ∀ slot, (nullAssociation.get slot).text.length < 2 ^ 64 := by
    intro slot
    rw [text_nullAssociation]
    decide
  have hwritten : w'.written = slowWriter.written ++ (cutReader.contents ++ [108]) := by
    rw [written_of_store hstore, flatMap_all]
    simp only [Context.record, text_nullAssociation]
    decide
  refine ⟨((load_depends_on_bytes hnull).1 _ _).2 hstarts, ?_, ?_⟩
  · exact (load_depends_on_bytes hnull).2.1 _ (Reader.isSteady_ofBytes (by decide)) (by decide)
  · exact (load_depends_on_bytes hcut).2.2 _ _ _ _ hstore hlength (by decide) hwritten

end Association

end OneTimeChannel

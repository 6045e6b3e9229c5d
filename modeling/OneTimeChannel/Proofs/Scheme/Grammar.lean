/-
  The grammar of schemes.

    NAME ['-' NUM] [':' HEX [':' HEX [':' NUM]]]

  The grammar is a relation between texts and schemes (`Denotes`), put together from those of names,
  numbers and byte strings.  It says nothing of cutting, nor of the order in which errors are looked for.

  The reader accepts exactly the texts of the grammar, with any blanks around them, and reads what they
  denote (`parse_eq_ok_iff_denotes`).  No part of a text holds a colon and no name holds a hyphen, so cutting finds
  the parts that the text was put together from (`Denotes.parseChars_eq`); and a text is what was cut, put
  together again, so no other text is accepted (`denotes_of_parseChars`).
-/
import OneTimeChannel.Proofs.Scheme
import OneTimeChannel.Proofs.Text.Cutting
import OneTimeChannel.Proofs.Text.Notation

namespace OneTimeChannel.Scheme

/-! ## The grammar -/

/-- One or more ASCII letters, digits or underscores. -/
def IsName (cs : List Char) : Prop := cs ≠ [] ∧ ∀ c ∈ cs, c.isAlphanum = true ∨ c = '_'

/-- A name in the form in which it is kept. -/
def lowered (name : List Char) : String := String.ofList (name.map Char.toLower)

/-- `NAME ['-' NUM]`, which stands for an algorithm and perhaps a variant. -/
inductive DenotesName : List Char → String → Option UInt32 → Prop where
  | alone {name : List Char} (hname : IsName name) : DenotesName name (lowered name) none
  | withVariant {name number : List Char} {v : UInt32} (hname : IsName name)
      (hnumber : Decimal.Denotes number v.toNat) :
      DenotesName (name ++ '-' :: number) (lowered name) (some v)

/-- `[':' HEX [':' HEX [':' NUM]]]`, which stands for init key, state and blocks. -/
inductive DenotesFields : List Char → Bytes → Bytes → UInt64 → Prop where
  | none : DenotesFields [] [] [] 0
  | initKey {key : List Char} {k : Bytes} (hkey : Hex.Denotes key k) :
      DenotesFields (':' :: key) k [] 0
  | state {key state : List Char} {k s : Bytes} (hkey : Hex.Denotes key k)
      (hstate : Hex.Denotes state s) : DenotesFields (':' :: (key ++ ':' :: state)) k s 0
  | blocks {key state number : List Char} {k s : Bytes} {n : UInt64} (hkey : Hex.Denotes key k)
      (hstate : Hex.Denotes state s) (hnumber : Decimal.Denotes number n.toNat) :
      DenotesFields (':' :: (key ++ ':' :: (state ++ ':' :: number))) k s n

/-- A text of the grammar and the scheme that it stands for. -/
def Denotes (cs : List Char) (s : Scheme) : Prop :=
  ∃ first rest, cs = first ++ rest ∧ DenotesName first s.algorithm s.variant
    ∧ DenotesFields rest s.initKey.bytes s.state s.blocks

variable {cs field name : List Char} {s : Scheme} {algorithm text : String} {variant : Option UInt32}

/-! ## Characters -/

/-- A character of a name is kept in lower case, and separates nothing. -/
structure InName (c : Char) : Prop where
  isFieldChar_toLower : isFieldChar c.toLower = true
  isBlank_eq : Text.isBlank c = false
  ne_colon : c ≠ ':'
  ne_hyphen : c ≠ '-'

theorem inName_of_isNameChar {c : Char} (h : isNameChar c = true) : InName c := by
  have hall : ∀ c : Char, c.toNat < 128 → isNameChar c = true → isFieldChar c.toLower = true
      ∧ Text.isBlank c = false ∧ c ≠ ':' ∧ c ≠ '-' := Text.forall_ascii (by decide)
  have hascii : c.toNat < 128 := by
    rw [isNameChar, Bool.or_eq_true, beq_iff_eq] at h
    rcases h with halphanum | rfl
    · exact Text.toNat_lt_of_isAlphanum halphanum
    · decide
  obtain ⟨hlower, hblank, hcolon, hhyphen⟩ := hall c hascii h
  exact ⟨hlower, hblank, hcolon, hhyphen⟩

/-- The characters of the parts of a text. -/
def InPart (c : Char) : Prop := isNameChar c = true ∨ c = '+' ∨ c = '-'

theorem InPart.ne_colon {c : Char} (h : InPart c) : c ≠ ':' := by
  rcases h with hname | rfl | rfl
  · exact (inName_of_isNameChar hname).ne_colon
  · decide
  · decide

theorem InPart.isBlank_eq {c : Char} (h : InPart c) : Text.isBlank c = false := by
  rcases h with hname | rfl | rfl
  · exact (inName_of_isNameChar hname).isBlank_eq
  · decide
  · decide

theorem colon_not_mem (h : ∀ c ∈ field, InPart c) : ':' ∉ field := fun hmem => (h _ hmem).ne_colon rfl

theorem IsName.isNameChar_of_mem (h : IsName name) {c : Char} (hc : c ∈ name) :
    isNameChar c = true := by
  rw [isNameChar, Bool.or_eq_true, beq_iff_eq]
  exact h.2 c hc

theorem IsName.hyphen_not_mem (h : IsName name) : '-' ∉ name := fun hmem =>
  (inName_of_isNameChar (h.isNameChar_of_mem hmem)).ne_hyphen rfl

theorem inPart_of_decimal {number : List Char} {n : Nat} (h : Decimal.Denotes number n) :
    ∀ c ∈ number, InPart c := by
  obtain ⟨ds, hsign, -, hdigits, -⟩ := h
  have hds : ∀ c ∈ ds, InPart c := by
    intro c hc
    refine Or.inl ?_
    rw [isNameChar, Char.isAlphanum, hdigits c hc, Bool.or_true, Bool.true_or]
  rcases hsign with rfl | rfl
  · exact hds
  · exact List.forall_mem_cons.2 ⟨Or.inr (Or.inl rfl), hds⟩

theorem inPart_of_hex {bs : Bytes} (h : Hex.Denotes cs bs) : ∀ c ∈ cs, InPart c := by
  have hall : ∀ c : Char, c.toNat < 128 → (Hex.digitValue? c).isSome = true → isNameChar c = true :=
    Text.forall_ascii (by decide)
  have hdigit : ∀ {c : Char} {n : Nat}, Hex.IsDigit c n → InPart c := by
    intro c n hc
    refine Or.inl (hall c hc.toNat_lt ?_)
    rw [Hex.digitValue?_eq_some_iff.2 hc]
    rfl
  induction h with
  | nil => exact fun _ hc => absurd hc List.not_mem_nil
  | cons hhigh hlow _ ih =>
    exact List.forall_mem_cons.2 ⟨hdigit hhigh, List.forall_mem_cons.2 ⟨hdigit hlow, ih⟩⟩

theorem DenotesName.inPart (h : DenotesName field algorithm variant) : ∀ c ∈ field, InPart c := by
  cases h with
  | alone hname => exact fun c hc => Or.inl (hname.isNameChar_of_mem hc)
  | withVariant hname hnumber =>
    intro c hc
    rcases List.mem_append.1 hc with hc | hc
    · exact Or.inl (hname.isNameChar_of_mem hc)
    rcases List.mem_cons.1 hc with rfl | hc
    · exact Or.inr (Or.inr rfl)
    · exact inPart_of_decimal hnumber c hc

/-- No blank stands in a text of the grammar. -/
theorem Denotes.isBlank_eq (h : Denotes cs s) : ∀ c ∈ cs, Text.isBlank c = false := by
  obtain ⟨first, rest, rfl, hname, hfields⟩ := h
  have hcolon : Text.isBlank ':' = false := by decide
  have hfirst : ∀ c ∈ first, Text.isBlank c = false := fun c hc => (hname.inPart c hc).isBlank_eq
  have hhex : ∀ {cs : List Char} {bs : Bytes}, Hex.Denotes cs bs → ∀ c ∈ cs, Text.isBlank c = false :=
    fun h c hc => (inPart_of_hex h c hc).isBlank_eq
  rw [List.forall_mem_append, and_iff_right hfirst]
  obtain ⟨algorithm, variant, ⟨k⟩, s, n⟩ := s
  cases hfields with
  | none => exact fun _ hc => absurd hc List.not_mem_nil
  | initKey hkey => exact List.forall_mem_cons.2 ⟨hcolon, hhex hkey⟩
  | state hkey hstate =>
    rw [List.forall_mem_cons, List.forall_mem_append, List.forall_mem_cons]
    exact ⟨hcolon, hhex hkey, hcolon, hhex hstate⟩
  | blocks hkey hstate hnumber =>
    rw [List.forall_mem_cons, List.forall_mem_append, List.forall_mem_cons, List.forall_mem_append,
      List.forall_mem_cons]
    exact ⟨hcolon, hhex hkey, hcolon, hhex hstate, hcolon,
      fun c hc => (inPart_of_decimal hnumber c hc).isBlank_eq⟩

/-! ## Reading each field -/

theorem name_iff : (name ≠ [] ∧ name.all isNameChar = true) ↔ IsName name := by
  simp only [IsName, isNameChar, List.all_eq_true, Bool.or_eq_true, beq_iff_eq]

theorem parseName_eq_ok_iff :
    parseName field = .ok (algorithm, variant) ↔ DenotesName field algorithm variant := by
  simp only [parseName, bind, Except.bind, pure, Except.pure, throw, throwThe, MonadExceptOf.throw]
  constructor
  · intro h
    cases hsplit : Text.splitOnce? '-' field with
    | none =>
      simp only [hsplit] at h
      split at h
      · next hname =>
        cases h
        exact .alone (name_iff.1 hname)
      · cases h
    | some parts =>
      obtain ⟨name, number⟩ := parts
      obtain ⟨-, rfl⟩ := Text.splitOnce?_eq_some_iff.1 hsplit
      cases hnumber : Decimal.parse? UInt32.size number with
      | none =>
        simp only [hsplit, hnumber] at h
        cases h
      | some v =>
        obtain ⟨hdenotes, hlt⟩ := Decimal.parse?_eq_some_iff.1 hnumber
        simp only [hsplit, hnumber] at h
        split at h
        · next hname =>
          cases h
          refine .withVariant (name_iff.1 hname) ?_
          rwa [UInt32.toNat_ofNat_of_lt' hlt]
        · cases h
  · intro h
    cases h with
    | alone hname =>
      simp only [Text.splitOnce?_of_not_mem hname.hyphen_not_mem]
      exact if_pos (name_iff.2 hname)
    | withVariant hname hnumber =>
      have hparse := Decimal.parse?_eq_some_iff.2 ⟨hnumber, UInt32.toNat_lt _⟩
      simp only [Text.splitOnce?_append hname.hyphen_not_mem, hparse, UInt32.ofNat_toNat]
      exact if_pos (name_iff.2 hname)

theorem parseHex_some_eq_ok_iff {flaw : Flaw} {bs : Bytes} :
    parseHex flaw (some field) = .ok bs ↔ Hex.Denotes field bs := by
  rw [← Hex.decodeChars_eq_ok_iff, parseHex]
  split
  · next bs' h => rw [h, Except.ok.injEq, Except.ok.injEq]
  · next e h =>
    rw [h]
    constructor
    · rintro ⟨⟩
    · rintro ⟨⟩

theorem parseBlocks_some_eq_ok_iff {n : UInt64} :
    parseBlocks (some field) = .ok n ↔ Decimal.Denotes field n.toNat := by
  rw [parseBlocks]
  constructor
  · intro h
    split at h
    · next value hvalue =>
      obtain ⟨hdenotes, hlt⟩ := Decimal.parse?_eq_some_iff.1 hvalue
      cases h
      rwa [UInt64.toNat_ofNat_of_lt' hlt]
    · cases h
  · intro h
    have hparse : Decimal.parse? UInt64.size field = some n.toNat :=
      Decimal.parse?_eq_some_iff.2 ⟨h, n.toNat_lt⟩
    rw [hparse]
    exact congrArg Except.ok UInt64.ofNat_toNat

/-! ## Reading a text -/

/-- Each field is read on its own. -/
theorem parseChars_eq_ok_iff :
    parseChars cs = .ok s ↔ (Text.split ':' cs).length ≤ 4
      ∧ parseName ((Text.split ':' cs).headD []) = .ok (s.algorithm, s.variant)
      ∧ parseHex .initKey (Text.split ':' cs)[1]? = .ok s.initKey.bytes
      ∧ parseHex .state (Text.split ':' cs)[2]? = .ok s.state
      ∧ parseBlocks (Text.split ':' cs)[3]? = .ok s.blocks := by
  simp only [parseChars, bind, Except.bind, pure, Except.pure, throw, throwThe, MonadExceptOf.throw]
  constructor
  · intro h
    split at h
    · cases h
    next hlength =>
    split at h
    · cases h
    next first hname =>
    split at h
    · cases h
    next key hkey =>
    split at h
    · cases h
    next state hstate =>
    split at h
    · cases h
    next blocks hblocks =>
    cases h
    exact ⟨Nat.not_lt.1 hlength, hname, hkey, hstate, hblocks⟩
  · rintro ⟨hlength, hname, hkey, hstate, hblocks⟩
    rw [if_neg (Nat.not_lt.2 hlength), hname, hkey, hstate, hblocks]

/-- The parts of a text are the fields that cutting finds. -/
theorem Denotes.parseChars_eq (h : Denotes cs s) : parseChars cs = .ok s := by
  obtain ⟨first, rest, rfl, hname, hfields⟩ := h
  have hfirst := colon_not_mem hname.inPart
  have hread := parseName_eq_ok_iff.2 hname
  obtain ⟨algorithm, variant, ⟨k⟩, s, n⟩ := s
  rw [parseChars_eq_ok_iff]
  cases hfields with
  | none =>
    rw [List.append_nil, Text.split_of_not_mem hfirst]
    exact ⟨by simp, hread, rfl, rfl, rfl⟩
  | initKey hkey =>
    rw [Text.split_append hfirst, Text.split_of_not_mem (colon_not_mem (inPart_of_hex hkey))]
    exact ⟨by simp, hread, parseHex_some_eq_ok_iff.2 hkey, rfl, rfl⟩
  | state hkey hstate =>
    rw [Text.split_append hfirst, Text.split_append (colon_not_mem (inPart_of_hex hkey)),
      Text.split_of_not_mem (colon_not_mem (inPart_of_hex hstate))]
    exact ⟨by simp, hread, parseHex_some_eq_ok_iff.2 hkey, parseHex_some_eq_ok_iff.2 hstate, rfl⟩
  | blocks hkey hstate hnumber =>
    rw [Text.split_append hfirst, Text.split_append (colon_not_mem (inPart_of_hex hkey)),
      Text.split_append (colon_not_mem (inPart_of_hex hstate)),
      Text.split_of_not_mem (colon_not_mem (inPart_of_decimal hnumber))]
    exact ⟨by simp, hread, parseHex_some_eq_ok_iff.2 hkey, parseHex_some_eq_ok_iff.2 hstate,
      parseBlocks_some_eq_ok_iff.2 hnumber⟩

/-- What was cut is put together again. -/
theorem denotes_of_parseChars (h : parseChars cs = .ok s) : Denotes cs s := by
  have hwhole := Text.intercalate_split ':' cs
  rw [parseChars_eq_ok_iff] at h
  obtain ⟨algorithm, variant, ⟨k⟩, s, n⟩ := s
  generalize Text.split ':' cs = fields at h hwhole
  obtain ⟨hlength, hname, hkey, hstate, hblocks⟩ := h
  subst hwhole
  match fields with
  | [] => cases hname
  | [first] =>
    cases hkey
    cases hstate
    cases hblocks
    exact ⟨first, [], by simp, parseName_eq_ok_iff.1 hname, .none⟩
  | [first, key] =>
    cases hstate
    cases hblocks
    exact ⟨first, _, by simp, parseName_eq_ok_iff.1 hname, .initKey (parseHex_some_eq_ok_iff.1 hkey)⟩
  | [first, key, state] =>
    cases hblocks
    exact ⟨first, _, by simp, parseName_eq_ok_iff.1 hname,
      .state (parseHex_some_eq_ok_iff.1 hkey) (parseHex_some_eq_ok_iff.1 hstate)⟩
  | [first, key, state, number] =>
    exact ⟨first, _, by simp, parseName_eq_ok_iff.1 hname,
      .blocks (parseHex_some_eq_ok_iff.1 hkey) (parseHex_some_eq_ok_iff.1 hstate)
        (parseBlocks_some_eq_ok_iff.1 hblocks)⟩
  | _ :: _ :: _ :: _ :: _ :: _ => exact absurd hlength (by simp)

theorem parse_eq_ok_iff_parseChars : parse text = .ok s ↔ parseChars (Text.trimmed text.toList) = .ok s := by
  rw [parse]
  split
  · next s' h => rw [h, Except.ok.injEq, Except.ok.injEq]
  · next flaw h =>
    rw [h]
    constructor
    · rintro ⟨⟩
    · rintro ⟨⟩

/-- A text describes a scheme if it is, without the blanks around it, written by the grammar, and the scheme
    is the one that it stands for. -/
theorem parse_eq_ok_iff_denotes (text : String) (s : Scheme) :
    parse text = .ok s ↔ ∃ cs, Text.Surrounds text.toList cs ∧ Denotes cs s := by
  rw [parse_eq_ok_iff_parseChars]
  constructor
  · intro h
    exact ⟨_, Text.surrounds_trimmed _, denotes_of_parseChars h⟩
  · rintro ⟨cs, hsurrounds, hdenotes⟩
    rw [hsurrounds.trimmed_eq hdenotes.isBlank_eq]
    exact hdenotes.parseChars_eq

end OneTimeChannel.Scheme

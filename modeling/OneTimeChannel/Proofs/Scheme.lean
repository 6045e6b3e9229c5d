/-
  A scheme is read back from its text.

  The fields of a text are written with lower-case letters, digits and underscores only
  (`isFieldChar`), so neither a colon nor a hyphen nor a blank stands inside of one.  Hence cutting the
  text at its colons gives the fields that were written (`split_chars`), cutting the first of them at its
  hyphen gives name and variant (`parseName_nameChars`), and trimming does nothing.

  What is asked of the scheme is a name that can stand in a text (`WellFormed`); the schemes of contexts
  have one.
-/
import OneTimeChannel.Cipher.Context
import OneTimeChannel.Proofs.Text.Digits
import OneTimeChannel.Proofs.Text.Utf8
import Mathlib.Logic.Basic

namespace OneTimeChannel

namespace Scheme

/-! ## Characters -/

/-- The characters of names and of digits in both notations. -/
def isFieldChar (c : Char) : Bool := c.isLower || c.isDigit || c == '_'

/-- A character of a field stays as it is when it is read, and separates nothing. -/
structure IsPlain (c : Char) : Prop where
  ascii : c.toNat < 128
  isNameChar_eq : isNameChar c = true
  toLower_eq : c.toLower = c
  isBlank_eq : Text.isBlank c = false
  ne_colon : c ≠ ':'
  ne_hyphen : c ≠ '-'

theorem isPlain_of_isFieldChar {c : Char} (h : isFieldChar c = true) : IsPlain c := by
  have hall : ∀ c : Char, c.toNat < 128 → isFieldChar c = true → isNameChar c = true ∧ c.toLower = c
      ∧ Text.isBlank c = false ∧ c ≠ ':' ∧ c ≠ '-' := Text.forall_ascii (by decide)
  have hascii : c.toNat < 128 := by
    rw [isFieldChar, Bool.or_eq_true, Bool.or_eq_true, beq_iff_eq] at h
    rcases h with (hlower | hdigit) | rfl
    · refine Text.toNat_lt_of_isAlphanum (Bool.or_eq_true_iff.2 (Or.inl ?_))
      exact Bool.or_eq_true_iff.2 (Or.inr hlower)
    · exact Text.toNat_lt_of_isAlphanum (Bool.or_eq_true_iff.2 (Or.inr hdigit))
    · decide
  obtain ⟨hname, hlower, hblank, hcolon, hhyphen⟩ := hall c hascii h
  exact ⟨hascii, hname, hlower, hblank, hcolon, hhyphen⟩

theorem isFieldChar_of_mem_digits {n : Nat} {c : Char} (h : c ∈ Decimal.digits n) :
    isFieldChar c = true := by
  rw [isFieldChar, Decimal.isDigit_of_mem_digits h, Bool.or_true, Bool.true_or]

theorem isFieldChar_of_mem_encodeChars {bs : Bytes} {c : Char} (h : c ∈ Hex.encodeChars bs) :
    isFieldChar c = true := by
  rcases Hex.cases_of_mem_encodeChars h with hlower | hdigit
  · rw [isFieldChar, hlower, Bool.true_or, Bool.true_or]
  · rw [isFieldChar, hdigit, Bool.or_true, Bool.true_or]

/-- A separator does not stand in a field. -/
theorem not_mem_of_isFieldChar {field : List Char} (h : ∀ c ∈ field, isFieldChar c = true) :
    ':' ∉ field ∧ '-' ∉ field := by
  constructor
  · intro hcolon
    exact (isPlain_of_isFieldChar (h _ hcolon)).ne_colon rfl
  · intro hhyphen
    exact (isPlain_of_isFieldChar (h _ hhyphen)).ne_hyphen rfl

/-! ## Schemes with a text -/

variable {s : Scheme}

/-- The name of the algorithm can stand in a text, in the form in which it is kept. -/
structure WellFormed (s : Scheme) : Prop where
  name_ne_nil : s.algorithm.toList ≠ []
  isFieldChar_name : ∀ c ∈ s.algorithm.toList, isFieldChar c = true

theorem WellFormed.colon_not_mem_nameChars (h : s.WellFormed) : ':' ∉ s.nameChars := by
  have hname := (not_mem_of_isFieldChar h.isFieldChar_name).1
  rw [nameChars]
  split
  · next v _ =>
    intro hmem
    rw [List.mem_append, List.mem_cons] at hmem
    rcases hmem with hmem | hhyphen | hmem
    · exact hname hmem
    · cases hhyphen
    · exact (not_mem_of_isFieldChar fun c hc => isFieldChar_of_mem_digits hc).1 hmem
  · exact hname

/-- Name and variant are read back from the first field. -/
theorem parseName_nameChars (h : s.WellFormed) :
    parseName s.nameChars = .ok (s.algorithm, s.variant) := by
  have hhyphen := (not_mem_of_isFieldChar h.isFieldChar_name).2
  have hall : s.algorithm.toList.all isNameChar = true := by
    rw [List.all_eq_true]
    intro c hc
    exact (isPlain_of_isFieldChar (h.isFieldChar_name c hc)).isNameChar_eq
  have hlower : s.algorithm.toList.map Char.toLower = s.algorithm.toList := by
    refine (List.map_congr_left fun c hc => ?_).trans (List.map_id _)
    exact (isPlain_of_isFieldChar (h.isFieldChar_name c hc)).toLower_eq
  have hkept : String.ofList (s.algorithm.toList.map Char.toLower) = s.algorithm := by
    rw [hlower, String.ofList_toList]
  rw [parseName, nameChars]
  cases hvariant : s.variant with
  | none =>
    simp only [Text.splitOnce?_of_not_mem hhyphen, bind, Except.bind, pure, Except.pure]
    rw [if_pos ⟨h.name_ne_nil, hall⟩, hkept]
  | some v =>
    have hparse := Decimal.parse?_digits v.toNat_lt
    simp only [Text.splitOnce?_append hhyphen, hparse, bind, Except.bind, pure, Except.pure]
    rw [if_pos ⟨h.name_ne_nil, hall⟩, hkept, UInt32.ofNat_toNat]

/-- The fields that are written: those up to the last one that says something. -/
def fields (s : Scheme) : List (List Char) :=
  if s.blocks ≠ 0 then
    [s.nameChars, Hex.encodeChars s.initKey.bytes, Hex.encodeChars s.state,
      Decimal.digits s.blocks.toNat]
  else if s.state ≠ [] then
    [s.nameChars, Hex.encodeChars s.initKey.bytes, Hex.encodeChars s.state]
  else if s.initKey.bytes ≠ [] then [s.nameChars, Hex.encodeChars s.initKey.bytes]
  else [s.nameChars]

/-- Cutting the text at its colons gives the fields. -/
theorem split_chars (h : s.WellFormed) : Text.split ':' s.chars = s.fields := by
  have hname := h.colon_not_mem_nameChars
  have hhex : ∀ bs, ':' ∉ Hex.encodeChars bs :=
    fun bs => (not_mem_of_isFieldChar fun c hc => isFieldChar_of_mem_encodeChars hc).1
  have hdigits : ':' ∉ Decimal.digits s.blocks.toNat :=
    (not_mem_of_isFieldChar fun c hc => isFieldChar_of_mem_digits hc).1
  rw [chars, fields]
  by_cases hblocks : s.blocks = 0
  · by_cases hstate : s.state = []
    · by_cases hkey : s.initKey.bytes = []
      · simp [hblocks, hstate, hkey, Text.split_of_not_mem hname]
      · simp [hblocks, hstate, hkey, Text.split_append hname, Text.split_of_not_mem (hhex _)]
    · simp [hblocks, hstate, Text.split_append hname, Text.split_append (hhex _),
        Text.split_of_not_mem (hhex _)]
  · simp [hblocks, Text.split_append hname, Text.split_append (hhex _),
      Text.split_of_not_mem hdigits]

/-! ## Reading the fields -/

theorem length_fields_le (s : Scheme) : s.fields.length ≤ 4 := by
  rw [fields]
  split
  · exact Nat.le_refl 4
  split
  · exact Nat.le_succ 3
  split
  · exact Nat.le_add_right 2 2
  · exact Nat.le_add_right 1 3

theorem headD_fields (s : Scheme) : s.fields.headD [] = s.nameChars := by
  rw [fields]
  split
  · rfl
  split
  · rfl
  split <;> rfl

theorem parseHex_encodeChars (flaw : Flaw) (bs : Bytes) :
    parseHex flaw (some (Hex.encodeChars bs)) = .ok bs := by
  rw [parseHex, Hex.decodeChars_encodeChars]

/-- A key that was left out is read as the empty one, and likewise with the fields behind it. -/
theorem parseHex_fields_one (s : Scheme) : parseHex .initKey s.fields[1]? = .ok s.initKey.bytes := by
  rw [fields]
  split
  · exact parseHex_encodeChars _ _
  split
  · exact parseHex_encodeChars _ _
  split
  · exact parseHex_encodeChars _ _
  · next hkey => rw [not_not.1 hkey]; rfl

theorem parseHex_fields_two (s : Scheme) : parseHex .state s.fields[2]? = .ok s.state := by
  rw [fields]
  split
  · exact parseHex_encodeChars _ _
  split
  · exact parseHex_encodeChars _ _
  · next hstate =>
    rw [not_not.1 hstate]
    split <;> rfl

theorem parseBlocks_fields_three (s : Scheme) : parseBlocks s.fields[3]? = .ok s.blocks := by
  rw [fields]
  split
  · show parseBlocks (some (Decimal.digits s.blocks.toNat)) = .ok s.blocks
    rw [parseBlocks, Decimal.parse?_digits s.blocks.toNat_lt]
    exact congrArg Except.ok UInt64.ofNat_toNat
  · next hblocks =>
    rw [not_not.1 hblocks]
    split
    · rfl
    split <;> rfl

theorem parseChars_chars (h : s.WellFormed) : parseChars s.chars = .ok s := by
  simp only [parseChars, split_chars h, if_neg (Nat.not_lt.2 s.length_fields_le), headD_fields,
    parseName_nameChars h, parseHex_fields_one, parseHex_fields_two, parseBlocks_fields_three, bind,
    Except.bind, pure, Except.pure]

/-- No blank stands in a text, and no character beyond ASCII. -/
theorem isPlain_or_of_mem_chars (h : s.WellFormed) {c : Char} (hc : c ∈ s.chars) :
    IsPlain c ∨ c = ':' ∨ c = '-' := by
  have hplain : ∀ {field : List Char}, (∀ c ∈ field, isFieldChar c = true) → c ∈ field →
      IsPlain c := fun hfield hmem => isPlain_of_isFieldChar (hfield c hmem)
  have hname : c ∈ s.nameChars → IsPlain c ∨ c = ':' ∨ c = '-' := by
    rw [nameChars]
    split
    · intro hmem
      rw [List.mem_append, List.mem_cons] at hmem
      rcases hmem with hmem | rfl | hmem
      · exact Or.inl (hplain h.isFieldChar_name hmem)
      · exact Or.inr (Or.inr rfl)
      · exact Or.inl (hplain (fun c hc => isFieldChar_of_mem_digits hc) hmem)
    · exact fun hmem => Or.inl (hplain h.isFieldChar_name hmem)
  have hafter : ∀ {p : Prop} [Decidable p] {field : List Char},
      (∀ c ∈ field, isFieldChar c = true) → c ∈ (if p then ':' :: field else []) →
      IsPlain c ∨ c = ':' ∨ c = '-' := by
    intro p _ field hfield hmem
    split at hmem
    · rcases List.mem_cons.1 hmem with rfl | hmem
      · exact Or.inr (Or.inl rfl)
      · exact Or.inl (hplain hfield hmem)
    · cases hmem
  rw [chars, List.mem_append, List.mem_append, List.mem_append] at hc
  rcases hc with ((hc | hc) | hc) | hc
  · exact hname hc
  · exact hafter (fun c hc => isFieldChar_of_mem_encodeChars hc) hc
  · exact hafter (fun c hc => isFieldChar_of_mem_encodeChars hc) hc
  · exact hafter (fun c hc => isFieldChar_of_mem_digits hc) hc

/-! ## Lengths -/

/-- A text has a byte for each of its characters. -/
theorem length_encode_render (h : s.WellFormed) :
    (Utf8.encode s.render).length = s.chars.length := by
  refine Utf8.length_encode_of_ascii fun c hc => ?_
  rcases isPlain_or_of_mem_chars h hc with hplain | rfl | rfl
  · exact hplain.ascii
  · decide
  · decide

/-- Twenty digits are enough for the blocks. -/
theorem length_chars_le (s : Scheme) :
    s.chars.length ≤ s.nameChars.length + 2 * s.initKey.length + 2 * s.state.length + 23 := by
  have hblocks : (Decimal.digits s.blocks.toNat).length ≤ 20 :=
    Decimal.length_digits_le (by decide) (Nat.lt_trans s.blocks.toNat_lt (by decide))
  have hoptional : ∀ (p : Prop) [Decidable p] (field : List Char),
      (if p then ':' :: field else []).length ≤ field.length + 1 := by
    intro p _ field
    split
    · exact Nat.le_refl _
    · exact Nat.zero_le _
  have hkey := hoptional ((s.blocks ≠ 0 ∨ s.state ≠ []) ∨ s.initKey.bytes ≠ [])
    (Hex.encodeChars s.initKey.bytes)
  have hstate := hoptional (s.blocks ≠ 0 ∨ s.state ≠ []) (Hex.encodeChars s.state)
  have hcount := hoptional (s.blocks ≠ 0) (Decimal.digits s.blocks.toNat)
  rw [Hex.length_encodeChars] at hkey hstate
  simp only [chars, List.length_append, Key.length] at *
  omega

/-- With blocks every field is written, two digits for each byte of key and state. -/
theorem length_chars_of_blocks (h : s.blocks ≠ 0) :
    s.chars.length = s.nameChars.length + 2 * s.initKey.length + 2 * s.state.length
      + (Decimal.digits s.blocks.toNat).length + 3 := by
  simp only [chars, h, ne_eq, not_false_eq_true, true_or, if_true, List.length_append,
    List.length_cons, Hex.length_encodeChars, Key.length]
  omega

/-! ## Reading the whole -/

/-- A scheme is read back from its text. -/
theorem parse_render (h : s.WellFormed) : parse s.render = .ok s := by
  have hblank : ∀ c ∈ s.chars, Text.isBlank c = false := by
    intro c hc
    rcases isPlain_or_of_mem_chars h hc with hplain | rfl | rfl
    · exact hplain.isBlank_eq
    · rfl
    · rfl
  rw [parse, render, String.toList_ofList, Text.trimmed_of_forall hblank, parseChars_chars h]

end Scheme

end OneTimeChannel

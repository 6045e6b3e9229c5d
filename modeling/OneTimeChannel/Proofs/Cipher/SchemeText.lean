/-
  The text of a context.

  Every context has a scheme that can stand in a text (`wellFormed_scheme`), so the text is read back, and
  the context made from it has the same scheme again (`create_render_scheme`).  That holds of contexts in
  any state, since a scheme that leaves out the zeros of a context describes a context without them, whose
  scheme leaves them out as well (`scheme_recreated`), and of tables of any size, since a scheme does not
  speak of tables (`scheme_tabulated`).

  How long the text is depends on what the context holds: a hash holds one field element, a pad all of its
  data (`length_text_le_of_not_pad`, `length_text_of_pad`).
-/
import OneTimeChannel.Proofs.Cipher.Recreation
import OneTimeChannel.Proofs.Scheme

namespace OneTimeChannel

namespace Algorithm

theorem state_emptied_all_zero (a : Algorithm) : a.emptied.state.all (· == 0) = true := by
  cases a with
  | null => rfl
  | pad data => rfl
  | evaluationHash h =>
    show (0 : Gf2.Element h.width.words).toBytes.all (· == 0) = true
    rw [Gf2.Element.toBytes_zero, List.all_replicate]
    simp

/-- The algorithm with the tables that contexts are made with. -/
def tabulated : Algorithm → Algorithm
  | evaluationHash h =>
    evaluationHash { h with
      alpha := .ofElement h.width.field h.alpha.factor .single
      field_eq := rfl
      alpha_ne_zero := h.alpha_ne_zero }
  | a => a

theorem hasSmallTables_tabulated (a : Algorithm) : a.tabulated.HasSmallTables := by
  cases a with
  | null => rintro h ⟨⟩
  | pad data => rintro h ⟨⟩
  | evaluationHash h =>
    rintro h' ⟨⟩
    rfl

end Algorithm

namespace Context

variable (c : Context)

/-! ## Schemes of contexts -/

theorem wellFormed_scheme : c.scheme.WellFormed := by
  have hnames : ∀ name ∈ ["null", "xor", "evhash"],
      name.toList ≠ [] ∧ name.toList.all Scheme.isFieldChar = true := by decide
  have hname : c.algorithm.name ∈ ["null", "xor", "evhash"] := by
    cases c.algorithm <;> simp [Algorithm.name]
  exact ⟨(hnames _ hname).1, List.all_eq_true.1 (hnames _ hname).2⟩

/-- What a scheme says apart from the data does not depend on the data. -/
theorem scheme_emptied (hzeros : c.blocks = 0 ∧ c.state.all (· == 0)) :
    { c with algorithm := c.algorithm.emptied }.scheme = c.scheme := by
  obtain ⟨algorithm, blocks, finalized⟩ := c
  have hstate : (Context.mk algorithm blocks finalized).scheme.state = [] := if_pos hzeros
  have hstate' : (Context.mk algorithm.emptied blocks finalized).scheme.state = [] :=
    if_pos ⟨hzeros.1, algorithm.state_emptied_all_zero⟩
  have hfields : ∀ c : Context, c.scheme = ⟨c.name, c.variant, c.initKey, c.scheme.state, c.blocks⟩ :=
    fun _ => rfl
  rw [hfields, hfields (Context.mk algorithm blocks finalized), hstate, hstate']
  cases algorithm <;> rfl

/-- A context that lost its zeros has the scheme that it had with them. -/
theorem scheme_recreated : c.recreated.scheme = c.scheme := by
  rw [recreated]
  split
  · next hzeros => exact c.scheme_emptied hzeros
  · rfl

theorem scheme_tabulated : { c with algorithm := c.algorithm.tabulated }.scheme = c.scheme := by
  obtain ⟨algorithm, blocks, finalized⟩ := c
  cases algorithm <;> rfl

/-- A context is made from its scheme, and has the same scheme again. -/
theorem exists_ofScheme_scheme : ∃ c', ofScheme c.scheme = .ok c' ∧ c'.scheme = c.scheme := by
  have hscheme := ofScheme_scheme (c := { c with algorithm := c.algorithm.tabulated })
    c.algorithm.hasSmallTables_tabulated
  rw [scheme_tabulated] at hscheme
  exact ⟨_, hscheme, (scheme_recreated _).trans c.scheme_tabulated⟩

/-- A context is made from its text, and has the same text again. -/
theorem create_render_scheme : ∃ c', create c.scheme.render = .ok c' ∧ c'.scheme = c.scheme := by
  have hcreate : create c.scheme.render = ofScheme c.scheme := by
    rw [create, Scheme.parse_render c.wellFormed_scheme]
  rw [hcreate]
  exact c.exists_ofScheme_scheme

/-! ## Lengths -/

/-- The text of a context as bytes. -/
def text : Bytes := Utf8.encode c.scheme.render

theorem length_text : c.text.length = c.scheme.chars.length :=
  Scheme.length_encode_render c.wellFormed_scheme

theorem length_state_scheme_le : c.scheme.state.length ≤ c.state.length := by
  show (if c.blocks = 0 ∧ c.state.all (· == 0) then [] else c.state).length ≤ c.state.length
  split
  · exact Nat.zero_le _
  · exact Nat.le_refl _

/-- The longest name is that of a hash of 256 bits. -/
theorem length_nameChars_scheme_le : c.scheme.nameChars.length ≤ 10 := by
  obtain ⟨algorithm, blocks, finalized⟩ := c
  cases algorithm with
  | null =>
    show "null".toList.length ≤ 10
    decide
  | pad data =>
    show "xor".toList.length ≤ 10
    decide
  | evaluationHash h =>
    have hbits : (UInt32.ofNat h.width.bits).toNat < 10 ^ 3 := by
      cases h.width <;> decide
    have hdigits := Decimal.length_digits_le (by decide) hbits
    show ("evhash".toList ++ '-' :: Decimal.digits (UInt32.ofNat h.width.bits).toNat).length ≤ 10
    rw [List.length_append, List.length_cons]
    exact Nat.add_le_add (Nat.le_refl 6) (Nat.succ_le_succ hdigits)

variable {c} {data : Bytes}

/-- A context that holds no data has a short text: it tells of one key and one tag at most. -/
theorem length_text_le_of_not_pad (h : ∀ data, c.algorithm ≠ .pad data) : c.text.length ≤ 161 := by
  have hchars := c.scheme.length_chars_le
  have hname := c.length_nameChars_scheme_le
  have hstate := c.length_state_scheme_le
  have hsizes : c.scheme.initKey.length ≤ 32 ∧ c.state.length ≤ 32 := by
    show c.algorithm.initKey.length ≤ 32 ∧ c.algorithm.state.length ≤ 32
    cases halgorithm : c.algorithm with
    | null => exact ⟨Nat.zero_le _, Nat.zero_le _⟩
    | pad data => exact absurd halgorithm (h data)
    | evaluationHash hash =>
      have hbytes := hash.bytes_le
      have hkey : hash.initKey.length = hash.bytes := Gf2.Element.length_toBytes _
      have htag : hash.tag.toBytes.length = hash.bytes := Gf2.Element.length_toBytes _
      exact ⟨hkey.trans_le hbytes, htag.trans_le hbytes⟩
  rw [length_text]
  omega

/-- A pad has a short name and no key. -/
theorem length_scheme_of_pad (h : c.algorithm = .pad data) :
    c.scheme.nameChars.length = 3 ∧ c.scheme.initKey.length = 0 := by
  obtain ⟨algorithm, blocks, finalized⟩ := c
  cases h
  constructor
  · show "xor".toList.length = 3
    decide
  · rfl

/-- The text of a pad grows with its data. -/
theorem length_text_le_of_pad (h : c.algorithm = .pad data) :
    c.text.length ≤ 2 * data.length + 26 := by
  have hchars := c.scheme.length_chars_le
  have hstate := c.length_state_scheme_le
  have hdata : c.state.length = data.length := by rw [state, h, Algorithm.state]
  obtain ⟨hname, hkey⟩ := length_scheme_of_pad h
  rw [length_text]
  omega

/-- It does so without bound. -/
theorem length_text_of_pad (h : c.algorithm = .pad data) (hblocks : c.blocks ≠ 0) :
    c.text.length = 2 * data.length + (Decimal.digits c.blocks.toNat).length + 6 := by
  have hstate : c.scheme.state = data := by
    show (if c.blocks = 0 ∧ c.state.all (· == 0) then [] else c.state) = data
    rw [if_neg fun hzeros => hblocks hzeros.1, state, h, Algorithm.state]
  obtain ⟨hname, hkey⟩ := length_scheme_of_pad h
  rw [length_text, Scheme.length_chars_of_blocks (s := c.scheme) hblocks, hname, hkey, hstate]
  show 3 + 2 * 0 + 2 * data.length + (Decimal.digits c.blocks.toNat).length + 3 = _
  omega

end Context

end OneTimeChannel

/-
  Which schemes a text can carry.

  Reading keeps a name in lower case, and what it keeps can be written: every scheme that was read has a
  name of lower-case letters, digits and underscores (`wellFormed_of_parse`).  A scheme with such a name is
  read back from its text, whatever its fields hold, so these are exactly the schemes that a text can carry
  (`reads_back`).
-/
import OneTimeChannel.Proofs.Scheme.Grammar

namespace OneTimeChannel.Scheme

variable {cs field : List Char} {s : Scheme} {algorithm text : String} {variant : Option UInt32}

/-- The name is kept in a form that can be written. -/
theorem DenotesName.exists_isName (h : DenotesName field algorithm variant) :
    ∃ name, IsName name ∧ algorithm = lowered name := by
  cases h with
  | alone hname => exact ⟨_, hname, rfl⟩
  | withVariant hname _ => exact ⟨_, hname, rfl⟩

theorem Denotes.wellFormed (h : Denotes cs s) : s.WellFormed := by
  obtain ⟨first, rest, -, hfirst, -⟩ := h
  obtain ⟨name, hname, halgorithm⟩ := hfirst.exists_isName
  have hchars : s.algorithm.toList = name.map Char.toLower := by
    rw [halgorithm, lowered, String.toList_ofList]
  constructor
  · rw [hchars]
    exact fun hnil => hname.1 (List.map_eq_nil_iff.1 hnil)
  · rw [hchars]
    intro c hc
    obtain ⟨c', hc', rfl⟩ := List.mem_map.1 hc
    exact (inName_of_isNameChar (hname.isNameChar_of_mem hc')).isFieldChar_toLower

theorem wellFormed_of_parse (h : parse text = .ok s) : s.WellFormed :=
  (denotes_of_parseChars (parse_eq_ok_iff_parseChars.1 h)).wellFormed

/-- A scheme is read back from its text if and only if its name can stand in a text; every scheme that
    was read is read back. -/
theorem reads_back :
    (∀ s : Scheme, parse s.render = .ok s ↔ s.WellFormed)
      ∧ ∀ (text : String) (s : Scheme), parse text = .ok s → parse s.render = .ok s := by
  refine ⟨fun s => ⟨wellFormed_of_parse, parse_render⟩, ?_⟩
  intro text s h
  exact parse_render (wellFormed_of_parse h)

/-- The scheme of a text with blanks, upper case, a sign and leading zeros, none of which is written again. -/
def oddlyWritten : Scheme where
  algorithm := "evhash_x"
  variant := some 96
  initKey := ⟨[0xab]⟩
  blocks := 7

theorem parse_oddlyWritten : parse "\t EvHash_X-+096:aB::007\n" = .ok oddlyWritten := by rfl

theorem reads_back_oddlyWritten :
    oddlyWritten.render = "evhash_x-96:ab::7" ∧ oddlyWritten.WellFormed
      ∧ parse oddlyWritten.render = .ok oddlyWritten := by
  have hread := reads_back.2 "\t EvHash_X-+096:aB::007\n" oddlyWritten parse_oddlyWritten
  exact ⟨by decide +kernel, (reads_back.1 oddlyWritten).1 hread, hread⟩

end OneTimeChannel.Scheme

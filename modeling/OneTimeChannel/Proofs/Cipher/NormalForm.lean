/-
  The normal form of a scheme.

  One context can be described in many ways: the variant of a hash may be left out, since the length of the
  init key selects it, and a state of zeros may be written where no block was counted.  The scheme of a
  context is one of these descriptions, the same for all of them (`scheme_of_ofScheme`), and it depends on the
  scheme that the context was made from and on nothing else.  This `normalised` scheme is its own normal
  form, its text is read back as it is, and the context made from the text has it again
  (`create_render_normalised`).

  The context itself may change on the way.  A pad that was given zeros as its state loses them, since the
  normal form does not mention them; it is the description that stays.
-/
import OneTimeChannel.Proofs.Cipher.SchemeText

namespace OneTimeChannel

namespace Scheme

variable (s : Scheme)

/-- The variant with what the init key says about it. -/
def fullVariant : Option UInt32 :=
  match s.variant with
  | some bits => some bits
  | none => if s.algorithm = "evhash" then some (UInt32.ofNat (8 * s.initKey.length)) else none

/-- The state, unless it says nothing. -/
def keptState : Bytes := if s.blocks = 0 ∧ s.state.all (· == 0) then [] else s.state

/-- The form in which a context gives its scheme back. -/
def normalised : Scheme := { s with variant := s.fullVariant, state := s.keptState }

theorem fullVariant_normalised : s.normalised.fullVariant = s.fullVariant := by
  obtain ⟨algorithm, variant, initKey, state, blocks⟩ := s
  cases variant with
  | some bits => rfl
  | none =>
    by_cases hname : algorithm = "evhash"
    · simp [normalised, fullVariant, hname]
    · simp [normalised, fullVariant, hname]

theorem keptState_normalised : s.normalised.keptState = s.keptState := by
  by_cases hzeros : s.blocks = 0 ∧ s.state.all (· == 0) = true
  · have hkept : s.keptState = [] := if_pos hzeros
    have hstate : s.normalised.state = [] := hkept
    rw [hkept, keptState, hstate, ite_self]
  · have hkept : s.keptState = s.state := if_neg hzeros
    have hstate : s.normalised.state = s.state := hkept
    rw [hkept, keptState, hstate]
    exact if_neg hzeros

/-- A normal form is its own normal form. -/
theorem normalised_normalised : s.normalised.normalised = s.normalised := by
  show { s with variant := s.normalised.fullVariant, state := s.normalised.keptState } = s.normalised
  rw [fullVariant_normalised, keptState_normalised]
  rfl

end Scheme

namespace Context

variable {c : Context} {s : Scheme} {text : String} {chunk : Gf2.ChunkSize} {a : Algorithm}

/-! ## What a scheme asks for -/

/-- The algorithm is the one that the scheme asks for, in any state. -/
structure IsAskedFor (s : Scheme) (a : Algorithm) : Prop where
  name_eq : a.name = s.algorithm
  variant_eq : a.variant = s.fullVariant
  initKey_eq : a.initKey = s.initKey

theorem isAskedFor_of_algorithmOf (h : algorithmOf s chunk = .ok a) : IsAskedFor s a := by
  have hempty : s.initKey.isEmpty = true → Key.empty = s.initKey :=
    fun he => congrArg Key.mk (List.isEmpty_iff.1 he).symm
  rcases algorithmOf_cases h with ⟨hname, hvariant, hkey, rfl⟩ | ⟨hname, hvariant, hkey, rfl⟩
    | ⟨hname, hbits, hash, hkey, rfl⟩
  · exact ⟨hname.symm, by simp [Scheme.fullVariant, hvariant, hname, Algorithm.variant], hempty hkey⟩
  · exact ⟨hname.symm, by simp [Scheme.fullVariant, hvariant, hname, Algorithm.variant], hempty hkey⟩
  · have hinit := (EvaluationHash.of_ofKey?_eq_some hkey).1
    refine ⟨hname.symm, ?_, hinit⟩
    rw [Algorithm.variant, hash.bits_eq, hinit, Scheme.fullVariant]
    cases hvariant : s.variant with
    | some bits => rw [Nat.mul_comm, hbits bits hvariant, UInt32.ofNat_toNat]
    | none => rw [if_pos hname]

/-- An algorithm begins with a state of zeros, of one length or another. -/
theorem zeros_of_algorithmOf (h : algorithmOf s chunk = .ok a) : a.state.all (· == 0) = true := by
  rw [← emptied_of_algorithmOf h]
  exact a.state_emptied_all_zero

/-- A state is taken over as it is, and changes nothing else. -/
theorem IsAskedFor.withState (ha : IsAskedFor s a) {a' : Algorithm} {state : Bytes}
    (h : a.withState state = .ok a') : IsAskedFor s a' ∧ a'.state = state := by
  rcases withState_eq_ok h with ⟨rfl, hnil, rfl⟩ | ⟨held, rfl, rfl⟩ | ⟨hash, tag, rfl, htag, rfl⟩
  · exact ⟨ha, hnil.symm⟩
  · exact ⟨⟨ha.name_eq, ha.variant_eq, ha.initKey_eq⟩, rfl⟩
  · exact ⟨⟨ha.name_eq, ha.variant_eq, ha.initKey_eq⟩, Gf2.Element.toBytes_of_ofBytes?_eq_some htag⟩

/-! ## Normal forms -/

/-- A context counts the blocks that its scheme counted, and holds the state that the scheme tells of, or
    zeros where there is nothing to tell. -/
theorem contents_of_ofScheme (h : ofScheme s = .ok c) :
    IsAskedFor s c.algorithm ∧ c.blocks = s.blocks
      ∧ (s.state = [] ∧ s.blocks = 0 ∧ c.state.all (· == 0) = true ∨ c.state = s.state) := by
  obtain ⟨a, ha, ⟨hnil, hzero, rfl⟩ | ⟨a', hstate, rfl⟩⟩ := ofScheme_cases h
  · exact ⟨isAskedFor_of_algorithmOf ha, hzero.symm, Or.inl ⟨hnil, hzero, zeros_of_algorithmOf ha⟩⟩
  · obtain ⟨hasked, hstate'⟩ := (isAskedFor_of_algorithmOf ha).withState hstate
    exact ⟨hasked, rfl, Or.inr hstate'⟩

/-- Which scheme a context has is decided by the scheme that it was made from. -/
theorem scheme_of_ofScheme (h : ofScheme s = .ok c) : c.scheme = s.normalised := by
  obtain ⟨hasked, hblocks, hstate⟩ := contents_of_ofScheme h
  have hkept : c.scheme.state = s.keptState := by
    show (if c.blocks = 0 ∧ c.state.all (· == 0) then [] else c.state) = s.keptState
    rcases hstate with ⟨hnil, hzero, hzeros⟩ | hstate
    · rw [if_pos ⟨hblocks.trans hzero, hzeros⟩, Scheme.keptState, hnil, ite_self]
    · rw [hblocks, hstate, Scheme.keptState]
  show Scheme.mk c.algorithm.name c.algorithm.variant c.algorithm.initKey c.scheme.state c.blocks = _
  rw [hasked.name_eq, hasked.variant_eq, hasked.initKey_eq, hkept, hblocks]
  rfl

/-- A text that describes a context is that of a scheme, and the context gives this scheme back in its normal
    form.  The normal form is read back from its own text, a context is made from it, and that context has it
    again. -/
theorem create_render_normalised (h : create text = .ok c) :
    (∃ s, Scheme.parse text = .ok s ∧ c.scheme = s.normalised)
      ∧ c.scheme.normalised = c.scheme
      ∧ Scheme.parse c.scheme.render = .ok c.scheme
      ∧ ∃ c', create c.scheme.render = .ok c' ∧ c'.scheme = c.scheme := by
  have hnormal : ∃ s, Scheme.parse text = .ok s ∧ c.scheme = s.normalised := by
    rw [create] at h
    split at h
    · next s hparse => exact ⟨s, hparse, scheme_of_ofScheme h⟩
    · cases h
  refine ⟨hnormal, ?_, Scheme.parse_render c.wellFormed_scheme, c.create_render_scheme⟩
  obtain ⟨s, -, hscheme⟩ := hnormal
  rw [hscheme, s.normalised_normalised]

/-- A hash whose name is in upper case, without a variant and with a state of zeros. -/
theorem create_render_normalised_evhash :
    ∃ c, create " EVHASH:0000000A:00000000" = .ok c
      ∧ c.scheme = { algorithm := "evhash", variant := some 32, initKey := ⟨[0, 0, 0, 10]⟩ }
      ∧ c.scheme.render = "evhash-32:0000000a"
      ∧ ∃ c', create "evhash-32:0000000a" = .ok c' ∧ c'.scheme = c.scheme := by
  obtain ⟨c, hc⟩ : ∃ c, create " EVHASH:0000000A:00000000" = .ok c := ⟨_, rfl⟩
  obtain ⟨⟨s, hparse, hscheme⟩, -, -, hagain⟩ := create_render_normalised hc
  have hs : Scheme.parse " EVHASH:0000000A:00000000"
      = .ok { algorithm := "evhash", initKey := ⟨[0, 0, 0, 10]⟩, state := [0, 0, 0, 0] } := rfl
  rw [hs] at hparse
  cases hparse
  have hnormal : c.scheme = { algorithm := "evhash", variant := some 32, initKey := ⟨[0, 0, 0, 10]⟩ } :=
    hscheme.trans rfl
  have hrender : c.scheme.render = "evhash-32:0000000a" := by
    rw [hnormal]
    decide +kernel
  rw [hrender] at hagain
  exact ⟨c, hc, hnormal, hrender, hagain⟩

end Context

end OneTimeChannel

/-
  The contexts that schemes describe.

  Which algorithm a context runs is decided by the name in its scheme, and whether it starts out empty by
  the state.  This file says so for the schemes that a tunnel is built from: `null` and `evhash` for
  authentication, `null` and `xor` without a state for encryption.
-/
import OneTimeChannel.Association.Basic
import OneTimeChannel.Proofs.Cipher.Context

namespace OneTimeChannel

/-- A scheme for contexts that make tags of one size. -/
def Scheme.Authenticates (text : String) : Prop :=
  ∃ s, Scheme.parse text = .ok s ∧ (s.algorithm = "null" ∨ s.algorithm = "evhash")

/-- A scheme for contexts that encrypt, or do nothing, and hold no data to begin with. -/
def Scheme.Encrypts (text : String) : Prop :=
  ∃ s, Scheme.parse text = .ok s ∧ (s.algorithm = "null" ∨ s.algorithm = "xor" ∧ s.state = [])

namespace Context

variable {c : Context} {s : Scheme} {text : String}

/-- A context that makes tags of one size. -/
structure Authenticates (c : Context) : Prop where
  finalized_eq : c.finalized = false
  algorithm_eq : c.algorithm = .null ∨ ∃ h, c.algorithm = .evaluationHash h

/-- A context that encrypts, or does nothing, and holds no data. -/
structure Encrypts (c : Context) : Prop where
  finalized_eq : c.finalized = false
  algorithm_eq : c.algorithm = .null ∨ c.algorithm = .pad []

/-! ## Creation -/

/-- There are three names, and each stands for one algorithm.  Only a hash has a key, and only a hash has a
    variant, which is how many bits its key has. -/
theorem algorithmOf_cases {chunk : Gf2.ChunkSize} {a : Algorithm} (h : algorithmOf s chunk = .ok a) :
    s.algorithm = "null" ∧ s.variant = none ∧ s.initKey.isEmpty = true ∧ a = .null
      ∨ s.algorithm = "xor" ∧ s.variant = none ∧ s.initKey.isEmpty = true ∧ a = .pad []
      ∨ s.algorithm = "evhash" ∧ (∀ bits, s.variant = some bits → s.initKey.length * 8 = bits.toNat)
        ∧ ∃ hash, EvaluationHash.ofKey? s.initKey chunk = some hash ∧ a = .evaluationHash hash := by
  unfold algorithmOf at h
  dsimp only at h
  -- one case for each name, and within the last one for each way of giving the width
  split at h
  · next hname hvariant =>
    split at h
    · next hempty =>
      cases h
      exact Or.inl ⟨hname, hvariant, hempty, rfl⟩
    · cases h
  · next hname hvariant =>
    split at h
    · next hempty =>
      cases h
      exact Or.inr (Or.inl ⟨hname, hvariant, hempty, rfl⟩)
    · cases h
  · next hname =>
    split at h
    · next hvariant =>
      split at h
      · next hash hkey =>
        cases h
        exact Or.inr (Or.inr ⟨hname, by simp [hvariant], hash, hkey, rfl⟩)
      · cases h
    · next bits hvariant =>
      split at h
      · cases h
      split at h
      · cases h
      next hlength =>
      split at h
      · next hash hkey =>
        cases h
        refine Or.inr (Or.inr ⟨hname, ?_, hash, hkey, rfl⟩)
        intro bits' hbits
        rw [hvariant] at hbits
        cases hbits
        exact not_not.1 hlength
      · cases h
  · cases h

theorem algorithmOf_eq_ok {chunk : Gf2.ChunkSize} {a : Algorithm} (h : algorithmOf s chunk = .ok a) :
    s.algorithm = "null" ∧ a = .null
      ∨ s.algorithm = "xor" ∧ a = .pad []
      ∨ s.algorithm = "evhash"
        ∧ ∃ hash, EvaluationHash.ofKey? s.initKey chunk = some hash ∧ a = .evaluationHash hash := by
  rcases algorithmOf_cases h with ⟨hname, -, -, ha⟩ | ⟨hname, -, -, ha⟩ | ⟨hname, -, ha⟩
  · exact Or.inl ⟨hname, ha⟩
  · exact Or.inr (Or.inl ⟨hname, ha⟩)
  · exact Or.inr (Or.inr ⟨hname, ha⟩)

/-- A context starts with what its scheme says of state and blocks, or without either. -/
theorem ofScheme_cases (h : ofScheme s = .ok c) :
    ∃ a, algorithmOf s .single = .ok a
      ∧ (s.state = [] ∧ s.blocks = 0 ∧ c = { algorithm := a }
        ∨ ∃ a', a.withState s.state = .ok a' ∧ c = { algorithm := a', blocks := s.blocks }) := by
  rw [ofScheme, ofSchemeWith] at h
  split at h
  · cases h
  next a ha =>
  split at h
  · next hempty =>
    cases h
    exact ⟨a, ha, Or.inl ⟨hempty.1, hempty.2, rfl⟩⟩
  split at h
  · next a' hstate =>
    cases h
    exact ⟨a, ha, Or.inr ⟨a', hstate, rfl⟩⟩
  · cases h

/-- A context made from a scheme runs the algorithm that the scheme names, with its state if it has
    one, and is not finalized. -/
theorem ofScheme_eq_ok (h : ofScheme s = .ok c) :
    c.finalized = false ∧ ∃ a, algorithmOf s .single = .ok a
      ∧ (s.state = [] ∧ c.algorithm = a ∨ a.withState s.state = .ok c.algorithm) := by
  obtain ⟨a, ha, ⟨hnil, -, rfl⟩ | ⟨a', hstate, rfl⟩⟩ := ofScheme_cases h
  · exact ⟨rfl, a, ha, Or.inl ⟨hnil, rfl⟩⟩
  · exact ⟨rfl, a, ha, Or.inr hstate⟩

/-- Each algorithm takes states of its own kind, and keeps everything but its state. -/
theorem withState_eq_ok {a a' : Algorithm} {state : Bytes} (h : a.withState state = .ok a') :
    a = .null ∧ state = [] ∧ a' = .null
      ∨ (∃ held, a = .pad held ∧ a' = .pad state)
      ∨ ∃ hash tag, a = .evaluationHash hash ∧ Gf2.Element.ofBytes? state = some tag
        ∧ a' = .evaluationHash { hash with tag } := by
  cases a with
  | null =>
    rw [Algorithm.withState] at h
    split at h
    · next hnil =>
      cases h
      exact Or.inl ⟨rfl, hnil, rfl⟩
    · cases h
  | pad held =>
    cases h
    exact Or.inr (Or.inl ⟨held, rfl, rfl⟩)
  | evaluationHash hash =>
    rw [Algorithm.withState, EvaluationHash.withTag?] at h
    cases htag : (Gf2.Element.ofBytes? state : Option (Gf2.Element hash.width.words)) with
    | none =>
      rw [htag] at h
      cases h
    | some tag =>
      rw [htag] at h
      cases h
      exact Or.inr (Or.inr ⟨hash, tag, rfl, htag, rfl⟩)

/-- A state does not change which algorithm it is the state of. -/
theorem withState_cases {a a' : Algorithm} {state : Bytes} (h : a.withState state = .ok a') :
    (a = .null → a' = .null) ∧ (∀ data, a = .pad data → a' = .pad state)
      ∧ ∀ hash, a = .evaluationHash hash → ∃ hash', a' = .evaluationHash hash' := by
  rcases withState_eq_ok h with ⟨rfl, -, rfl⟩ | ⟨held, rfl, rfl⟩ | ⟨hash, tag, rfl, -, rfl⟩
  · exact ⟨fun _ => rfl, by rintro data ⟨⟩, by rintro hash ⟨⟩⟩
  · exact ⟨by rintro ⟨⟩, fun _ _ => rfl, by rintro hash ⟨⟩⟩
  · exact ⟨by rintro ⟨⟩, by rintro data ⟨⟩, fun _ _ => ⟨_, rfl⟩⟩

theorem authenticates_of_create (htext : Scheme.Authenticates text) (h : create text = .ok c) :
    c.Authenticates := by
  obtain ⟨s, hparse, hname⟩ := htext
  rw [create, hparse] at h
  obtain ⟨hfin, a, ha, hstate⟩ := ofScheme_eq_ok h
  refine ⟨hfin, ?_⟩
  have hcases : a = .null ∨ ∃ hash, a = .evaluationHash hash := by
    rcases algorithmOf_eq_ok ha with ⟨-, rfl⟩ | ⟨hxor, -⟩ | ⟨-, hash, -, rfl⟩
    · exact Or.inl rfl
    · rw [hxor] at hname
      exact absurd hname (by decide)
    · exact Or.inr ⟨hash, rfl⟩
  rcases hstate with ⟨-, rfl⟩ | hstate
  · exact hcases
  · rcases hcases with hnull | ⟨hash, hhash⟩
    · exact Or.inl ((withState_cases hstate).1 hnull)
    · exact Or.inr ((withState_cases hstate).2.2 hash hhash)

theorem encrypts_of_create (htext : Scheme.Encrypts text) (h : create text = .ok c) :
    c.Encrypts := by
  obtain ⟨s, hparse, hname⟩ := htext
  rw [create, hparse] at h
  obtain ⟨hfin, a, ha, hstate⟩ := ofScheme_eq_ok h
  refine ⟨hfin, ?_⟩
  rcases algorithmOf_eq_ok ha with ⟨-, rfl⟩ | ⟨hxor, rfl⟩ | ⟨hhash, -⟩
  · rcases hstate with ⟨-, heq⟩ | hstate
    · exact Or.inl heq
    · exact Or.inl ((withState_cases hstate).1 rfl)
  · rw [hxor] at hname
    have hempty : s.state = [] := (hname.resolve_left (by decide)).2
    rcases hstate with ⟨-, heq⟩ | hstate
    · exact Or.inr heq
    · rw [hempty] at hstate
      exact Or.inr ((withState_cases hstate).2.1 [] rfl)
  · rw [hhash] at hname
    exact absurd hname (by simp)

/-- Tags of one size ask for keys of one length. -/
theorem Authenticates.consumesKeyPerByte_eq (h : c.Authenticates) : c.consumesKeyPerByte = false := by
  rw [consumesKeyPerByte]
  rcases h.algorithm_eq with hnull | ⟨hash, hhash⟩
  · rw [hnull]
    rfl
  · rw [hhash]
    rfl

end Context

/-! ## Associations -/

namespace Association

variable {d : AssociationDefinition} {a : Association}

/-- The contexts of an association are the ones that its definition describes. -/
theorem ofDefinition_eq_ok_iff :
    ofDefinition d = .ok a ↔ ∀ slot, Context.create (d.get slot) = .ok (a.get slot) := by
  simp only [ofDefinition, Slots.ofFnM, bind, Except.bind, pure, Except.pure]
  constructor
  · intro h
    split at h
    · cases h
    next authenticationIncoming h₁ =>
    split at h
    · cases h
    next authenticationOutgoing h₂ =>
    split at h
    · cases h
    next encryptionIncoming h₃ =>
    split at h
    · cases h
    next encryptionOutgoing h₄ =>
    cases h
    intro slot
    cases slot with
    | authenticationIncoming => exact h₁
    | authenticationOutgoing => exact h₂
    | encryptionIncoming => exact h₃
    | encryptionOutgoing => exact h₄
  · intro h
    rw [h .authenticationIncoming, h .authenticationOutgoing, h .encryptionIncoming,
      h .encryptionOutgoing]
    rfl

/-- What one end sends with, the other receives with. -/
theorem ofDefinition_mirrored (h : ofDefinition d = .ok a) :
    ofDefinition d.mirrored = .ok a.mirrored := by
  rw [ofDefinition_eq_ok_iff] at h ⊢
  intro slot
  rw [Slots.get_mirrored, Slots.get_mirrored]
  exact h slot.opposite

end Association

end OneTimeChannel

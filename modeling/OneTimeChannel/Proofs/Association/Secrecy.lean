/-
  What errors and descriptions tell of a scheme.

  Behind the first colon of a scheme all is secret.  An error about a scheme says which error it is, why the
  text is no scheme or how long a key was that is not usable, and repeats the text before the colon
  (`Failure.causes`).  So it tells two texts with the same head apart only if they fail in different ways
  (`errors_and_descriptions_hide_keys`).

  The errors of the reader repeat the head as it was given.  Those of the algorithms have the name from the
  scheme that was read, which is that of the scheme in the head alone (`parse_head`), and the flaw of a state
  is that of the algorithm (`ofScheme_eq_error`).
-/
import OneTimeChannel.Proofs.Cipher.Creation
import OneTimeChannel.Proofs.Scheme.Grammar

namespace OneTimeChannel

namespace Scheme

variable {s : Scheme} {head rest : String}

theorem toList_head_append : (head ++ ":" ++ rest).toList = head.toList ++ ':' :: rest.toList := by
  simp

/-- What stands before the first colon is a scheme on its own if the whole is one. -/
theorem parse_head (hhead : ':' ∉ head.toList) (h : parse (head ++ ":" ++ rest) = .ok s) :
    parse head = .ok { algorithm := s.algorithm, variant := s.variant } := by
  have hcut : ':' ∉ head.toList.dropWhile Text.isBlank :=
    fun hmem => hhead ((List.dropWhile_sublist _).subset hmem)
  rw [parse_eq_ok_iff_parseChars, toList_head_append, Text.trimmed_append_cons (by decide),
    parseChars_eq_ok_iff, Text.split_append hcut] at h
  obtain ⟨-, hname, -⟩ := h
  have hdenotes : Denotes (head.toList.dropWhile Text.isBlank)
      { algorithm := s.algorithm, variant := s.variant } :=
    ⟨_, [], (List.append_nil _).symm, parseName_eq_ok_iff.1 hname, .none⟩
  have hsurrounds : Text.Surrounds head.toList (head.toList.dropWhile Text.isBlank) :=
    ⟨head.toList.takeWhile Text.isBlank, [], by simp, fun _ hc => List.mem_takeWhile_imp hc, by simp⟩
  rw [parse_eq_ok_iff_parseChars, hsurrounds.trimmed_eq hdenotes.isBlank_eq]
  exact hdenotes.parseChars_eq

/-- The scheme in a head, with no name if there is none. -/
def announced (head : String) : Scheme :=
  match parse head with
  | .ok s => s
  | .error _ => { algorithm := "" }

theorem announced_eq (hhead : ':' ∉ head.toList) (h : parse (head ++ ":" ++ rest) = .ok s) :
    announced head = { algorithm := s.algorithm, variant := s.variant } := by
  rw [announced, parse_head hhead h]

/-- The error of a text repeats its head. -/
theorem head_of_parse_eq_error {e : Error} (hhead : ':' ∉ head.toList)
    (h : parse (head ++ ":" ++ rest) = .error e) : e.head = head := by
  rw [parse] at h
  split at h
  · cases h
  · cases h
    rw [Error.ofText, toList_head_append, Text.beforeFirst_append hhead, String.ofList_toList]

end Scheme

namespace Context

variable {s : Scheme} {e : CreationError} {chunk : Gf2.ChunkSize} {head rest : String}

/-! ## Failures -/

/-- How a context could not be made, without what the error repeats of the text. -/
inductive Failure where
  | unknownAlgorithm
  | scheme (reason : String)
  | initKey (length : Nat)
  | context
  deriving DecidableEq

def CreationError.failure : CreationError → Failure
  | unknownAlgorithm _ => .unknownAlgorithm
  | scheme e => .scheme e.flaw.message
  | initKey _ length => .initKey length
  | context _ => .context

/-- What an algorithm says of a state that it refuses. -/
def stateFlaw (algorithm : String) : StateFlaw :=
  if algorithm = "null" then .nullHasState else .notOneElement

/-- The lines of the error about a text with this head. -/
def Failure.causes (head : String) : Failure → List String
  | unknownAlgorithm => [s!"unknown crypto algorithm {Text.quoted (Scheme.announced head).name}"]
  | scheme reason => [s!"invalid scheme {Text.quoted head}: {reason}"]
  | initKey length => [s!"init key of {length} bytes is not usable for {(Scheme.announced head).name}"]
  | context =>
    ["context initialization failed",
      s!"invalid context state: {(stateFlaw (Scheme.announced head).algorithm).message}"]

/-! ## Errors of algorithms -/

theorem algorithmOf_eq_error (h : algorithmOf s chunk = .error e) :
    e = .unknownAlgorithm s.name ∨ e = .initKey s.name s.initKey.length := by
  unfold algorithmOf at h
  dsimp only at h
  -- as for an algorithm that is found: one case for each name, the last one with its ways of failing
  split at h
  · split at h
    · cases h
    · exact Or.inr (Except.error.inj h).symm
  · split at h
    · cases h
    · exact Or.inr (Except.error.inj h).symm
  · split at h
    · split at h
      · cases h
      · exact Or.inr (Except.error.inj h).symm
    split at h
    · exact Or.inl (Except.error.inj h).symm
    split at h
    · exact Or.inr (Except.error.inj h).symm
    split at h
    · cases h
    · exact Or.inr (Except.error.inj h).symm
  · exact Or.inl (Except.error.inj h).symm

/-- Each algorithm has one way of refusing a state. -/
theorem withState_eq_error {a : Algorithm} {state : Bytes} {flaw : StateFlaw}
    (h : a.withState state = .error flaw) : flaw = stateFlaw a.name := by
  cases a with
  | null =>
    rw [Algorithm.withState] at h
    split at h
    · cases h
    · exact (Except.error.inj h).symm
  | pad data => cases h
  | evaluationHash hash =>
    rw [Algorithm.withState] at h
    split at h
    · cases h
    · exact (Except.error.inj h).symm

/-- An error about a scheme has its name, the length of its key, or nothing of it at all. -/
theorem ofScheme_eq_error (h : ofScheme s = .error e) :
    e = .unknownAlgorithm s.name ∨ e = .initKey s.name s.initKey.length
      ∨ e = .context (.invalidState (stateFlaw s.algorithm)) := by
  rw [ofScheme, ofSchemeWith] at h
  split at h
  · next e' herror =>
    cases h
    exact (algorithmOf_eq_error herror).imp_right Or.inl
  next a ha =>
  split at h
  · cases h
  split at h
  · cases h
  · next flaw hstate =>
    cases h
    have hname : a.name = s.algorithm := by
      rcases algorithmOf_eq_ok ha with ⟨hname, rfl⟩ | ⟨hname, rfl⟩ | ⟨hname, _, _, rfl⟩
      all_goals exact hname.symm
    rw [withState_eq_error hstate, hname]
    exact Or.inr (Or.inr rfl)

/-- The lines of an error are those of its failure, about the head of the text. -/
theorem causes_of_create_eq_error (hhead : ':' ∉ head.toList)
    (h : create (head ++ ":" ++ rest) = .error e) : e.causes = e.failure.causes head := by
  rw [create] at h
  split at h
  · next s hparse =>
    have hannounced := Scheme.announced_eq hhead hparse
    have hname : (Scheme.announced head).name = s.name := by rw [hannounced]; rfl
    rcases ofScheme_eq_error h with rfl | rfl | rfl
    · rw [CreationError.failure, Failure.causes, hname]
      rfl
    · rw [CreationError.failure, Failure.causes, hname]
      rfl
    · rw [CreationError.failure, Failure.causes, hannounced]
      rfl
  · next e' hparse =>
    cases h
    have hsame := Scheme.head_of_parse_eq_error hhead hparse
    rw [CreationError.failure, Failure.causes, ← hsame]
    rfl

end Context

namespace AssociationDefinition

variable {d d' : AssociationDefinition}

/-- Two definitions have the same heads. -/
def SameHeads (d d' : AssociationDefinition) : Prop :=
  ∀ slot, ∃ head, Text.IsHead ':' head (d.get slot).toList ∧ Text.IsHead ':' head (d'.get slot).toList

theorem description_eq_of_sameHeads (h : SameHeads d d') : d.description = d'.description := by
  have hhead : ∀ slot, Text.beforeFirst ':' (d.get slot).toList
      = Text.beforeFirst ':' (d'.get slot).toList := by
    intro slot
    obtain ⟨head, hd, hd'⟩ := h slot
    rw [hd.beforeFirst_eq, hd'.beforeFirst_eq]
  unfold description
  simp only [hhead]

end AssociationDefinition

/-- The lines of an error are made of the head of the text and the way in which it fails; so texts with one
    head that fail in one way have the same error.  Definitions with the same heads have the same
    description. -/
theorem errors_and_descriptions_hide_keys :
    (∀ (head rest : String) (e : Context.CreationError), ':' ∉ head.toList →
        Context.create (head ++ ":" ++ rest) = .error e → e.causes = e.failure.causes head)
      ∧ (∀ (head rest rest' : String) (e e' : Context.CreationError), ':' ∉ head.toList →
        Context.create (head ++ ":" ++ rest) = .error e →
        Context.create (head ++ ":" ++ rest') = .error e' →
        e.failure = e'.failure → e.causes = e'.causes)
      ∧ ∀ d d' : AssociationDefinition, d.SameHeads d' → d.description = d'.description := by
  refine ⟨fun _ _ _ => Context.causes_of_create_eq_error, ?_,
    fun _ _ => AssociationDefinition.description_eq_of_sameHeads⟩
  intro head rest rest' e e' hhead he he' hfailure
  rw [Context.causes_of_create_eq_error hhead he, Context.causes_of_create_eq_error hhead he', hfailure]

/-- Two keys of two bytes, which no hash takes, and the definitions that they stand in. -/
theorem errors_and_descriptions_hide_keys_shortKeys :
    ∃ e e', Context.create " EVHASH:00ff" = .error e ∧ Context.create " EVHASH:a1b2:77" = .error e'
      ∧ e.failure = .initKey 2 ∧ e'.failure = .initKey 2
      ∧ e.causes = ["init key of 2 bytes is not usable for evhash"] ∧ e.causes = e'.causes
      ∧ AssociationDefinition.description (.replicate " EVHASH:00ff")
        = AssociationDefinition.description (.replicate " EVHASH:a1b2:77") := by
  have he : Context.create (" EVHASH" ++ ":" ++ "00ff") = .error (.initKey "evhash" 2) := rfl
  have he' : Context.create (" EVHASH" ++ ":" ++ "a1b2:77") = .error (.initKey "evhash" 2) := rfl
  have hhead : ':' ∉ " EVHASH".toList := by decide
  have hheads : AssociationDefinition.SameHeads (.replicate " EVHASH:00ff")
      (.replicate " EVHASH:a1b2:77") := by
    intro slot
    refine ⟨" EVHASH".toList, ?_⟩
    cases slot
    all_goals exact ⟨⟨hhead, Or.inr ⟨"00ff".toList, rfl⟩⟩, hhead, Or.inr ⟨"a1b2:77".toList, rfl⟩⟩
  obtain ⟨hcauses, hsame, hdescription⟩ := errors_and_descriptions_hide_keys
  refine ⟨_, _, he, he', rfl, rfl, ?_, hsame _ _ _ _ _ hhead he he' rfl, hdescription _ _ hheads⟩
  rw [hcauses _ _ _ hhead he]
  decide +kernel

end OneTimeChannel

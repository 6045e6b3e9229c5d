/-
  Contexts that are resumed, and contexts that are made anew.

  A scheme tells of a state in two ways: `resume` puts it into a context that is there, and `ofScheme` puts
  it into a new one.  What the two have in common can be asked for (`Request`), and two contexts are the same
  if they give the same replies to whatever they are asked, one request after the other.  The replies do not
  depend on the size of the tables of a hash (`replies_tabulated`), and that is the only way in which a
  context that was resumed differs from one that was made anew (`tabulated_of_resume`).

  The two ways part where the scheme has no state.  `ofScheme` takes this for the state that a context starts
  with, which `scheme` leaves out; `resume` reads it as a state of no bytes, and no bytes are no field
  element.  So a hash cannot be resumed from the scheme of a hash that has just begun
  (`resume_scheme_eq_ok_iff`).
-/
import OneTimeChannel.Proofs.Cipher.Chunking
import OneTimeChannel.Proofs.Cipher.SchemeText

namespace OneTimeChannel

namespace Context

/-! ## Requests -/

/-- What a context can be asked, once it is made. -/
inductive Request where
  | add (data : Bytes)
  | finalize (key : Key)
  | setState (state : Bytes)
  | resume (s : Scheme)
  | state
  | blocks
  | scheme

/-- What it replies. -/
inductive Reply where
  | done
  | bytes (bs : Bytes)
  | count (n : UInt64)
  | description (s : Scheme)
  | refused (e : Error)

/-- Does what is asked, or nothing if that is refused. -/
def perform (c : Context) : Request → Context × Reply
  | .add data =>
    match c.add data with
    | .ok c' => (c', .done)
    | .error e => (c, .refused e)
  | .finalize key =>
    match c.finalize key with
    | .ok (c', out) => (c', .bytes out)
    | .error e => (c, .refused e)
  | .setState state =>
    match c.setState state with
    | .ok c' => (c', .done)
    | .error e => (c, .refused e)
  | .resume s =>
    match c.resume s with
    | .ok c' => (c', .done)
    | .error e => (c, .refused e)
  | .state => (c, .bytes c.state)
  | .blocks => (c, .count c.blocks)
  | .scheme => (c, .description c.scheme)

/-- The replies to one request after the other. -/
def replies (c : Context) : List Request → List Reply
  | [] => []
  | r :: rest => (c.perform r).2 :: (c.perform r).1.replies rest

end Context

/-! ## Tables -/

namespace EvaluationHash

theorem digest_eq_evaluate (h : EvaluationHash) (tag : Gf2.Element h.width.words) (data : Bytes) :
    h.digest tag data = h.width.field.evaluate h.alpha.factor tag
      ((pieces h.bytes data).map (Gf2.Element.padded h.width.words)) := by
  rw [← h.foldl_afterBlock, List.foldl_map]
  rfl

end EvaluationHash

namespace Algorithm

theorem absorbed_tabulated (a : Algorithm) (data : Bytes) :
    a.tabulated.absorbed data = (a.absorbed data).tabulated := by
  cases a with
  | null => rfl
  | pad held => rfl
  | evaluationHash h =>
    have hdigest : ∀ h' : EvaluationHash, Algorithm.evaluationHash h' = (evaluationHash h).tabulated →
        (evaluationHash h').absorbed data = ((evaluationHash h).absorbed data).tabulated := by
      rintro h' ⟨⟩
      rw [absorbed, absorbed, EvaluationHash.digest_eq_evaluate, EvaluationHash.digest_eq_evaluate]
      rfl
    exact hdigest _ rfl

theorem withState_tabulated (a : Algorithm) (state : Bytes) :
    a.tabulated.withState state = (a.withState state).map tabulated := by
  cases a with
  | null =>
    show null.withState state = (null.withState state).map tabulated
    rw [withState]
    split <;> rfl
  | pad held => rfl
  | evaluationHash h =>
    show (evaluationHash _).withState state = _
    rw [withState, withState, EvaluationHash.withTag?, EvaluationHash.withTag?]
    cases Gf2.Element.ofBytes? state <;> rfl

/-- A state replaces another one. -/
theorem withState_emptied (a : Algorithm) (state : Bytes) :
    a.emptied.withState state = a.withState state := by
  cases a with
  | null => rfl
  | pad held => rfl
  | evaluationHash h =>
    rw [emptied, withState, withState, EvaluationHash.withTag?, EvaluationHash.withTag?]
    cases Gf2.Element.ofBytes? state <;> rfl

/-! ## Names -/

variable {a : Algorithm}

theorem eq_null_of_name_eq (h : a.name = "null") : a = .null := by
  cases a with
  | null => rfl
  | pad held => exact absurd h (by simp [name])
  | evaluationHash hash => exact absurd h (by simp [name])

theorem eq_pad_of_name_eq (h : a.name = "xor") : ∃ held, a = .pad held := by
  cases a with
  | null => exact absurd h (by simp [name])
  | pad held => exact ⟨held, rfl⟩
  | evaluationHash hash => exact absurd h (by simp [name])

theorem eq_evaluationHash_of_name_eq (h : a.name = "evhash") : ∃ hash, a = .evaluationHash hash := by
  cases a with
  | null => exact absurd h (by simp [name])
  | pad held => exact absurd h (by simp [name])
  | evaluationHash hash => exact ⟨hash, rfl⟩

end Algorithm

namespace Context

/-! ## Contexts apart from their tables -/

variable {c d : Context}

/-- The context with the tables that contexts are made with. -/
def tabulated (c : Context) : Context := { c with algorithm := c.algorithm.tabulated }

theorem add_tabulated (c : Context) (data : Bytes) :
    c.tabulated.add data = (c.add data).map tabulated := by
  cases hfin : c.finalized with
  | true =>
    rw [add_of_finalized hfin, add_of_finalized (c := c.tabulated) hfin]
    rfl
  | false =>
    have hblocks : c.algorithm.tabulated.blockCount data = c.algorithm.blockCount data := by
      cases c.algorithm <;> rfl
    rw [add_eq hfin, add_eq (c := c.tabulated) hfin, absorbed]
    simp only [tabulated, Algorithm.absorbed_tabulated, hblocks]
    rfl

theorem acceptsFinalKey_tabulated (c : Context) (key : Key) :
    c.tabulated.acceptsFinalKey key = c.acceptsFinalKey key := by
  rw [acceptsFinalKey, acceptsFinalKey, tabulated]
  cases c.algorithm <;> rfl

theorem finalize_tabulated (c : Context) (key : Key) :
    c.tabulated.finalize key = (c.finalize key).map (Prod.map tabulated id) := by
  cases hfin : c.finalized with
  | true =>
    rw [finalize_of_finalized hfin, finalize_of_finalized (c := c.tabulated) hfin]
    rfl
  | false =>
    have hkey := c.acceptsFinalKey_tabulated key
    by_cases haccepts : c.acceptsFinalKey key = true
    · rw [finalize_eq hfin haccepts, finalize_eq (c := c.tabulated) hfin (hkey.trans haccepts)]
      obtain ⟨algorithm, blocks, finalized⟩ := c
      cases algorithm <;> rfl
    · have haccepts' : ¬ c.tabulated.acceptsFinalKey key = true := by
        rw [hkey]
        exact haccepts
      rw [finalize_of_not_accepts hfin haccepts, finalize_of_not_accepts (c := c.tabulated) hfin haccepts']
      rfl

theorem setState_tabulated (c : Context) (state : Bytes) :
    c.tabulated.setState state = (c.setState state).map tabulated := by
  have hstate := c.algorithm.withState_tabulated state
  rw [setState, setState, tabulated]
  dsimp only
  rw [hstate]
  cases c.algorithm.withState state <;> rfl

theorem resume_tabulated (c : Context) (s : Scheme) :
    c.tabulated.resume s = (c.resume s).map tabulated := by
  have hcompatible : c.tabulated.isCompatible s = c.isCompatible s := by
    obtain ⟨algorithm, blocks, finalized⟩ := c
    cases algorithm <;> rfl
  rw [resume, resume, hcompatible, setState_tabulated]
  split
  · cases c.setState s.state <;> rfl
  · rfl

theorem state_tabulated (c : Context) : c.tabulated.state = c.state := by
  rw [state, state, tabulated]
  cases c.algorithm <;> rfl

/-- What is done and what is replied do not depend on the tables. -/
theorem perform_tabulated (c : Context) (r : Request) :
    c.tabulated.perform r = ((c.perform r).1.tabulated, (c.perform r).2) := by
  cases r with
  | add data =>
    rw [perform, perform, add_tabulated]
    cases c.add data <;> rfl
  | finalize key =>
    rw [perform, perform, finalize_tabulated]
    rcases c.finalize key with e | ⟨c', out⟩ <;> rfl
  | setState state =>
    rw [perform, perform, setState_tabulated]
    cases c.setState state <;> rfl
  | resume s =>
    rw [perform, perform, resume_tabulated]
    cases c.resume s <;> rfl
  | state => rw [perform, perform, state_tabulated]
  | blocks => rfl
  | scheme =>
    rw [perform, perform, tabulated, scheme_tabulated]

theorem replies_tabulated (c : Context) (requests : List Request) :
    c.tabulated.replies requests = c.replies requests := by
  induction requests generalizing c with
  | nil => rfl
  | cons r rest ih => rw [replies, replies, perform_tabulated, ih]

/-! ## Resumption -/

variable {s : Scheme}

theorem isCompatible_iff : c.isCompatible s = true ↔
    s.algorithm = c.name ∧ (∀ v, s.variant = some v → c.variant = some v)
      ∧ s.initKey.bytes = c.initKey.bytes := by
  rw [isCompatible, Bool.and_eq_true, Bool.and_eq_true, beq_iff_eq, sameBytes_iff, and_assoc]
  cases s.variant with
  | none => simp
  | some v => simp

/-- A scheme that is compatible names the algorithm of the context. -/
theorem algorithm_eq_of_isCompatible (hcompatible : c.isCompatible s = true) {a : Algorithm}
    (ha : algorithmOf s .single = .ok a) : a = c.algorithm.emptied.tabulated := by
  obtain ⟨hname, -, hkey⟩ := isCompatible_iff.1 hcompatible
  rw [name] at hname
  rcases algorithmOf_eq_ok ha with ⟨hnull, rfl⟩ | ⟨hxor, rfl⟩ | ⟨hevhash, hash, hhash, rfl⟩
  · rw [Algorithm.eq_null_of_name_eq (hname.symm.trans hnull)]
    rfl
  · obtain ⟨held, halgorithm⟩ := Algorithm.eq_pad_of_name_eq (hname.symm.trans hxor)
    rw [halgorithm]
    rfl
  · obtain ⟨h, halgorithm⟩ := Algorithm.eq_evaluationHash_of_name_eq (hname.symm.trans hevhash)
    rw [initKey, halgorithm, Algorithm.initKey, EvaluationHash.initKey] at hkey
    have hfactor : Gf2.Element.ofBytes? s.initKey.bytes = some h.alpha.factor := by
      rw [hkey, Gf2.Element.ofBytes?_toBytes]
    rw [EvaluationHash.ofKey?_eq_some .single hfactor h.alpha_ne_zero] at hhash
    cases hhash
    rw [halgorithm]
    rfl

/-- A hash is given a scheme that leaves out the state. -/
def LacksState (c : Context) (s : Scheme) : Prop :=
  s.state = [] ∧ ∃ h, c.algorithm = .evaluationHash h

theorem setState_of_lacksState (h : c.LacksState s) :
    c.setState s.state = .error (.invalidState .notOneElement) := by
  obtain ⟨hstate, hash, hhash⟩ := h
  have hnone : Gf2.Element.ofBytes? ([] : Bytes) = (none : Option (Gf2.Element hash.width.words)) := by
    have hw := hash.width.words_pos
    refine if_neg ?_
    rw [List.length_nil]
    omega
  rw [setState, hhash, hstate, Algorithm.withState, EvaluationHash.withTag?, hnone]

/-- The state of a scheme that leaves it out is the one of a new context, for all but hashes. -/
theorem withState_nil_of_not_lacksState (h : ¬ c.LacksState s) (hstate : s.state = []) :
    c.algorithm.withState [] = .ok c.algorithm.emptied := by
  cases halgorithm : c.algorithm with
  | null => rfl
  | pad held => rfl
  | evaluationHash hash => exact absurd ⟨hstate, hash, halgorithm⟩ h

/-- A context that was resumed is the one that is made anew, apart from the tables. -/
theorem tabulated_of_resume (hcompatible : c.isCompatible s = true) (hmade : ofScheme s = .ok d)
    (hstate : ¬ c.LacksState s) : ∃ c', c.resume s = .ok c' ∧ c'.tabulated = d := by
  rw [resume, if_pos hcompatible]
  rw [ofScheme, ofSchemeWith] at hmade
  split at hmade
  · cases hmade
  next a ha =>
  have halgorithm := algorithm_eq_of_isCompatible hcompatible ha
  split at hmade
  · next hempty =>
    cases hmade
    have hset : c.setState s.state = .ok { c with algorithm := c.algorithm.emptied } := by
      rw [setState, hempty.1, withState_nil_of_not_lacksState hstate hempty.1]
    rw [hset, hempty.2, halgorithm]
    exact ⟨_, rfl, rfl⟩
  · rw [halgorithm, Algorithm.withState_tabulated, Algorithm.withState_emptied] at hmade
    rw [setState]
    cases hwith : c.algorithm.withState s.state with
    | ok a' =>
      rw [hwith] at hmade
      cases hmade
      exact ⟨_, rfl, rfl⟩
    | error flaw =>
      rw [hwith] at hmade
      cases hmade

theorem resume_of_lacksState (hcompatible : c.isCompatible s = true) (h : c.LacksState s) :
    c.resume s = .error (.invalidState .notOneElement) := by
  rw [resume, if_pos hcompatible, setState_of_lacksState h]

/-- Contexts of one algorithm, variant and init key are compatible with the schemes of each other. -/
theorem isCompatible_scheme {e : Context} (hname : e.name = c.name) (hvariant : e.variant = c.variant)
    (hkey : e.initKey = c.initKey) : c.isCompatible e.scheme = true := by
  refine isCompatible_iff.2 ⟨hname, ?_, congrArg Key.bytes hkey⟩
  intro v hv
  rw [← hvariant]
  exact hv

/-- Data changes nothing of that. -/
theorem keeps_absorbed (c : Context) (data : Bytes) : (c.absorbed data).name = c.name
    ∧ (c.absorbed data).variant = c.variant ∧ (c.absorbed data).initKey = c.initKey := by
  rw [name, name, variant, variant, initKey, initKey, absorbed]
  cases c.algorithm <;> exact ⟨rfl, rfl, rfl⟩

theorem state_ne_nil_of_name_eq {e : Context} (hname : e.name = "evhash") : e.state ≠ [] := by
  obtain ⟨h, halgorithm⟩ := Algorithm.eq_evaluationHash_of_name_eq hname
  rw [state, halgorithm]
  intro hnil
  have hlength : h.tag.toBytes.length = 0 := congrArg List.length hnil
  rw [Gf2.Element.length_toBytes] at hlength
  have hw := h.width.words_pos
  omega

/-- A context can be resumed from the scheme of any context of its algorithm, variant and init key, unless
    that is a hash that has counted no block and whose state is zero. -/
theorem resume_scheme_eq_ok_iff {e : Context} (hname : e.name = c.name) (hvariant : e.variant = c.variant)
    (hkey : e.initKey = c.initKey) :
    (∃ c', c.resume e.scheme = .ok c')
      ↔ ¬ ((∃ h, c.algorithm = .evaluationHash h) ∧ e.blocks = 0 ∧ e.state.all (· == 0)) := by
  have hcompatible := isCompatible_scheme hname hvariant hkey
  constructor
  · rintro ⟨c', hresume⟩ ⟨hhash, hzeros⟩
    have hlacks : c.LacksState e.scheme := ⟨if_pos hzeros, hhash⟩
    rw [resume_of_lacksState hcompatible hlacks] at hresume
    cases hresume
  · intro h
    obtain ⟨d, hmade, -⟩ := e.exists_ofScheme_scheme
    have hstate : ¬ c.LacksState e.scheme := by
      rintro ⟨hnil, hash, hhash⟩
      refine h ⟨⟨hash, hhash⟩, ?_⟩
      by_contra hzeros
      have hevhash : e.name = "evhash" := by
        rw [hname, name, hhash]
        rfl
      have hempty : e.state = [] := (if_neg hzeros).symm.trans hnil
      exact state_ne_nil_of_name_eq hevhash hempty
    obtain ⟨c', hresume, -⟩ := tabulated_of_resume hcompatible hmade hstate
    exact ⟨c', hresume⟩

/-- Every context is resumed from a compatible scheme as it would be made anew from it: the state, the blocks
    and all replies from then on are the same.  Only a hash that finds no state in the scheme refuses it, and
    of the schemes of its own kind these are the ones that leave out a state of zeros. -/
theorem resume_agrees_with_ofScheme (c : Context) :
    (∀ s d, c.isCompatible s = true → ofScheme s = .ok d → ¬ c.LacksState s →
        ∃ c', c.resume s = .ok c' ∧ c'.state = d.state ∧ c'.blocks = d.blocks
          ∧ c'.finalized = d.finalized ∧ ∀ requests, c'.replies requests = d.replies requests)
      ∧ (∀ s, c.isCompatible s = true → c.LacksState s →
        c.resume s = .error (.invalidState .notOneElement))
      ∧ ∀ e : Context, e.name = c.name → e.variant = c.variant → e.initKey = c.initKey →
        ((∃ c', c.resume e.scheme = .ok c')
          ↔ ¬ ((∃ h, c.algorithm = .evaluationHash h) ∧ e.blocks = 0 ∧ e.state.all (· == 0))) := by
  refine ⟨?_, fun s => resume_of_lacksState, fun e => resume_scheme_eq_ok_iff⟩
  intro s d hcompatible hmade hstate
  obtain ⟨c', hresume, rfl⟩ := tabulated_of_resume hcompatible hmade hstate
  exact ⟨c', hresume, c'.state_tabulated.symm, rfl, rfl,
    fun requests => (c'.replies_tabulated requests).symm⟩

/-- A scheme for `hashingAtX` that has a state and does not say how wide the field is. -/
def hashingAtXFrom7 : Scheme where
  algorithm := "evhash"
  variant := none
  initKey := hashingAtX.initKey
  state := [0, 0, 0, 7]
  blocks := 3

/-- It agrees on this scheme, refuses its own one, and takes that one once it has counted a block. -/
theorem resume_agrees_with_ofScheme_hashingAtX :
    (∃ c' d, hashingAtX.resume hashingAtXFrom7 = .ok c' ∧ ofScheme hashingAtXFrom7 = .ok d
        ∧ c'.state = d.state ∧ c'.blocks = d.blocks ∧ c'.finalized = d.finalized
        ∧ ∀ requests, c'.replies requests = d.replies requests)
      ∧ hashingAtX.resume hashingAtX.scheme = .error (.invalidState .notOneElement)
      ∧ ∃ c', hashingAtX.resume (hashingAtX.absorbed [1, 2]).scheme = .ok c' := by
  obtain ⟨hagrees, hlacks, hown⟩ := resume_agrees_with_ofScheme hashingAtX
  obtain ⟨d, hmade⟩ : ∃ d, ofScheme hashingAtXFrom7 = .ok d := ⟨_, rfl⟩
  have hcompatible : hashingAtX.isCompatible hashingAtXFrom7 = true := by decide
  have hstate : ¬ hashingAtX.LacksState hashingAtXFrom7 := by
    rintro ⟨hnil, -⟩
    cases hnil
  obtain ⟨c', hresume, hagree⟩ := hagrees hashingAtXFrom7 d hcompatible hmade hstate
  have hused : ¬ ((∃ h, hashingAtX.algorithm = .evaluationHash h)
      ∧ (hashingAtX.absorbed [1, 2]).blocks = 0
      ∧ (hashingAtX.absorbed [1, 2]).state.all (· == 0) = true) := by
    rintro ⟨-, hblocks, -⟩
    cases hblocks
  obtain ⟨hname, hvariant, hkey⟩ := hashingAtX.keeps_absorbed [1, 2]
  exact ⟨⟨c', d, hresume, hmade, hagree⟩, hlacks hashingAtX.scheme (by decide) ⟨rfl, _, rfl⟩,
    (hown (hashingAtX.absorbed [1, 2]) hname hvariant hkey).2 hused⟩

/-- A hash cannot be resumed from its own scheme before it has taken in data, although it can be made anew
    from it. -/
theorem not_resumed_hashingAtX :
    ¬ ∀ (c : Context) (s : Scheme) (d : Context), c.isCompatible s = true → ofScheme s = .ok d →
      ∃ c', c.resume s = .ok c' ∧ c'.state = d.state ∧ c'.blocks = d.blocks
        ∧ c'.finalized = d.finalized ∧ ∀ requests, c'.replies requests = d.replies requests := by
  intro h
  obtain ⟨c', hresume, -⟩ := h hashingAtX hashingAtX.scheme hashingAtX (by decide) rfl
  have hrefused : hashingAtX.resume hashingAtX.scheme = .error (.invalidState .notOneElement) := rfl
  rw [hrefused] at hresume
  cases hresume

end Context

end OneTimeChannel

/-
  Contexts made anew from their schemes.

  A scheme names the algorithm with its init key, which gives the algorithm without its state
  (`algorithmOf_scheme`), and then the state, which puts the data back (`withState_state`).  The scheme
  leaves the state out where no block was counted and every byte of it is zero.  For a hash that is the
  state it starts with, so nothing is lost.  For a pad it is not: zeros that wait for a key do change the
  length of the key and of the result, and a context that was given them as its state has counted no
  block (`HidesZeros`).

  So a context that hides no zeros is its own recreation (`recreated_of_not_hidesZeros`), and one that
  does loses them (`recreated_of_hidesZeros`).  This decides about copies, too, since a pad is copied by
  way of its scheme (`copy_eq`).
-/
import OneTimeChannel.Proofs.Cipher.Creation

namespace OneTimeChannel

/-! ## Algorithms -/

theorem LittleEndian.ofNat_zero (k : Nat) : ofNat k 0 = List.replicate k 0 := by
  induction k with
  | zero => rfl
  | succ k ih => rw [ofNat, Nat.zero_div, ih]; rfl

theorem Gf2.Element.toBytes_zero (w : Nat) :
    (0 : Gf2.Element w).toBytes = List.replicate (4 * w) 0 := by
  have hzero : (0 : Gf2.Element w).toNat = 0 := rfl
  rw [toBytes, hzero, BigEndian.ofNat, LittleEndian.ofNat_zero, List.reverse_replicate]

theorem Gf2.Width.ofBytes?_bytes (k : Gf2.Width) : Gf2.Width.ofBytes? k.bytes = some k := by
  cases k <;> rfl

/-- The hash of an init key is made with the same tables. -/
theorem EvaluationHash.ofKey?_initKey {h : EvaluationHash} (hchunk : h.alpha.chunk = .single) :
    EvaluationHash.ofKey? h.initKey .single = some { h with tag := 0 } := by
  obtain ⟨width, alpha, tag, hfield, hne⟩ := h
  have hlength : (⟨alpha.factor.toBytes⟩ : Key).length = width.bytes := by
    simp [Key.length, Gf2.Width.bytes]
  have htables : Gf2.FixedFactor.ofElement width.field alpha.factor .single = alpha := by
    rw [← hfield, ← hchunk]
    exact alpha.eq_ofElement.symm
  rw [ofKey?, initKey, hlength, Gf2.Width.ofBytes?_bytes]
  dsimp only
  rw [Gf2.Element.ofBytes?_toBytes]
  simp only [hne, htables, dite_false]

/-- A hash begins with the tag zero and has the key that it was made with. -/
theorem EvaluationHash.of_ofKey?_eq_some {initKey : Key} {chunk : Gf2.ChunkSize} {h : EvaluationHash}
    (hkey : EvaluationHash.ofKey? initKey chunk = some h) :
    h.initKey = initKey ∧ h.tag = 0 ∧ h.alpha.chunk = chunk := by
  rw [ofKey?] at hkey
  split at hkey
  · cases hkey
  split at hkey
  · cases hkey
  next alpha hbytes =>
  split at hkey
  · cases hkey
  · cases hkey
    exact ⟨congrArg Key.mk (Gf2.Element.toBytes_of_ofBytes?_eq_some hbytes), rfl, rfl⟩

/-- The key of a hash has as many bits as its variant says. -/
theorem EvaluationHash.bits_eq (h : EvaluationHash) : h.width.bits = 8 * h.initKey.length := by
  simp only [initKey, Key.length, Gf2.Element.length_toBytes, Gf2.Width.bits]
  omega

namespace Algorithm

/-- The tables of a hash have the size that contexts are made with. -/
def HasSmallTables (a : Algorithm) : Prop :=
  ∀ h, a = .evaluationHash h → h.alpha.chunk = .single

theorem HasSmallTables.withState {a a' : Algorithm} (h : a.HasSmallTables) {state : Bytes}
    (hstate : a.withState state = .ok a') : a'.HasSmallTables := by
  rcases Context.withState_eq_ok hstate with ⟨rfl, -, rfl⟩ | ⟨held, rfl, rfl⟩ | ⟨hash, tag, rfl, -, rfl⟩
  · exact h
  · rintro hash ⟨⟩
  · rintro hash' ⟨⟩
    exact h hash rfl

theorem HasSmallTables.absorbed {a : Algorithm} (h : a.HasSmallTables) (data : Bytes) :
    (a.absorbed data).HasSmallTables := by
  cases a with
  | null => exact h
  | pad held => rintro hash ⟨⟩
  | evaluationHash hash =>
    rintro hash' ⟨⟩
    exact h hash rfl

theorem HasSmallTables.emptied {a : Algorithm} (h : a.HasSmallTables) : a.emptied.HasSmallTables := by
  cases a with
  | null => exact h
  | pad held => rintro hash ⟨⟩
  | evaluationHash hash =>
    rintro hash' ⟨⟩
    exact h hash rfl

theorem withState_state (a : Algorithm) : a.emptied.withState a.state = .ok a := by
  cases a with
  | null => rfl
  | pad data => rfl
  | evaluationHash h =>
    simp only [emptied, withState, state, EvaluationHash.withTag?, Gf2.Element.ofBytes?_toBytes]

/-- A state of zeros is the one that a hash starts with. -/
theorem emptied_eq_self_of_zeros {a : Algorithm} (hzeros : a.state.all (· == 0) = true)
    (hpad : ∀ data, a = .pad data → data = []) : a.emptied = a := by
  cases a with
  | null => rfl
  | pad data =>
    rw [hpad data rfl]
    rfl
  | evaluationHash h =>
    have hbytes : h.tag.toBytes = (0 : Gf2.Element h.width.words).toBytes := by
      rw [Gf2.Element.toBytes_zero, List.eq_replicate_iff]
      refine ⟨h.tag.length_toBytes, ?_⟩
      intro b hb
      exact eq_of_beq (List.all_eq_true.1 hzeros b hb)
    have htag : h.tag = 0 := Gf2.Element.toBytes_injective hbytes
    rw [emptied, ← htag]

end Algorithm

namespace Context

variable {c c' : Context}

/-! ## Recreation -/

/-- An algorithm that a scheme names holds nothing yet. -/
theorem emptied_of_algorithmOf {s : Scheme} {chunk : Gf2.ChunkSize} {a : Algorithm}
    (h : algorithmOf s chunk = .ok a) : a.emptied = a := by
  rcases algorithmOf_eq_ok h with ⟨-, rfl⟩ | ⟨-, rfl⟩ | ⟨-, hash, hkey, rfl⟩
  · rfl
  · rfl
  · rw [Algorithm.emptied, ← (EvaluationHash.of_ofKey?_eq_some hkey).2.1]

theorem algorithmOf_scheme (h : c.algorithm.HasSmallTables) :
    algorithmOf c.scheme .single = .ok c.algorithm.emptied := by
  obtain ⟨algorithm, blocks, finalized⟩ := c
  cases algorithm with
  | null => rfl
  | pad data => rfl
  | evaluationHash hash =>
    have hwidth : (UInt32.ofNat hash.width.bits).toNat = hash.width.bits := by
      cases hash.width <;> rfl
    have hbits : (Gf2.Width.ofBits? hash.width.bits).isNone = false := by
      cases hash.width <;> rfl
    have hlength : hash.initKey.length * 8 = hash.width.bits := by rw [hash.bits_eq, Nat.mul_comm]
    simp [algorithmOf, scheme, name, variant, initKey, Algorithm.name, Algorithm.variant,
      Algorithm.initKey, EvaluationHash.ofKey?_initKey (h hash rfl), hwidth, hbits, hlength,
      Algorithm.emptied]

/-- What becomes of a context that is made anew from its scheme, apart from being finalized. -/
def recreated (c : Context) : Context :=
  if c.blocks = 0 ∧ c.state.all (· == 0) then { c with algorithm := c.algorithm.emptied } else c

theorem ofScheme_scheme (h : c.algorithm.HasSmallTables) :
    ofScheme c.scheme = .ok { c.recreated with finalized := false } := by
  have hblocks : c.scheme.blocks = c.blocks := rfl
  rw [ofScheme, ofSchemeWith, algorithmOf_scheme h, recreated, hblocks]
  dsimp only
  by_cases hzeros : c.blocks = 0 ∧ c.state.all (· == 0) = true
  · have hstate : c.scheme.state = [] := if_pos hzeros
    rw [if_pos hzeros, if_pos ⟨hstate, hzeros.1⟩, hzeros.1]
  · have hstate : c.scheme.state = c.state := if_neg hzeros
    have hsaid : ¬ (c.state = [] ∧ c.blocks = 0) := by
      rintro ⟨hnil, hblocks⟩
      exact hzeros ⟨hblocks, by rw [hnil]; rfl⟩
    rw [if_neg hzeros, hstate, if_neg hsaid, state, c.algorithm.withState_state]

/-- An algorithm that cannot copy itself is made anew. -/
theorem copy_of_duplicate?_eq_none (hnone : c.algorithm.duplicate? = none) :
    c.copy = .ok c.recreated := by
  have hcloneable : c.isCloneable = true := by
    rw [isCloneable]
    cases c.algorithm <;> rfl
  have htables : c.algorithm.HasSmallTables := by
    intro h hhash
    rw [hhash] at hnone
    cases hnone
  have hfinalized : c.recreated.finalized = c.finalized := by
    rw [recreated]
    split <;> rfl
  rw [copy, if_pos hcloneable, hnone]
  simp only [ofScheme_scheme htables, ← hfinalized]

/-- A copy is what a recreation is, also where the algorithm copies itself. -/
theorem copy_eq (c : Context) : c.copy = .ok c.recreated := by
  cases halgorithm : c.algorithm with
  | null => exact copy_of_duplicate?_eq_none (by rw [halgorithm]; rfl)
  | pad data => exact copy_of_duplicate?_eq_none (by rw [halgorithm]; rfl)
  | evaluationHash h =>
    rw [copy_of_evaluationHash halgorithm, recreated]
    split
    · next hzeros => rw [Algorithm.emptied_eq_self_of_zeros hzeros.2 (by simp [halgorithm])]
    · rfl

/-- The context holds nothing but zeros to be encrypted, at least one, and has counted no block. -/
def HidesZeros (c : Context) : Prop :=
  c.blocks = 0 ∧ ∃ data, c.algorithm = .pad data ∧ data ≠ [] ∧ ∀ b ∈ data, b = 0

/-- Zeros that are hidden are lost. -/
theorem recreated_of_hidesZeros (h : c.HidesZeros) :
    c.recreated = { c with algorithm := .pad [] } := by
  obtain ⟨hblocks, data, halgorithm, -, hzeros⟩ := h
  have hstate : c.state.all (· == 0) = true := by
    rw [state, halgorithm]
    exact List.all_eq_true.2 fun b hb => beq_iff_eq.2 (hzeros b hb)
  rw [recreated, if_pos ⟨hblocks, hstate⟩, halgorithm]
  rfl

/-- Nothing else is. -/
theorem recreated_of_not_hidesZeros (h : ¬ c.HidesZeros) : c.recreated = c := by
  rw [recreated]
  split
  · next hzeros =>
    have hpad : ∀ data, c.algorithm = .pad data → data = [] := by
      intro data halgorithm
      by_contra hne
      have hall := hzeros.2
      rw [state, halgorithm] at hall
      exact h ⟨hzeros.1, data, halgorithm, hne, fun b hb => eq_of_beq (List.all_eq_true.1 hall b hb)⟩
    rw [Algorithm.emptied_eq_self_of_zeros hzeros.2 hpad]
  · rfl

theorem copy_of_not_hidesZeros (h : ¬ c.HidesZeros) : c.copy = .ok c := by
  rw [copy_eq, recreated_of_not_hidesZeros h]

/-- The contexts that a tunnel is built from are their own copies. -/
theorem Encrypts.copy_eq (h : c.Encrypts) : c.copy = .ok c := by
  refine copy_of_not_hidesZeros ?_
  rintro ⟨-, data, halgorithm, hne, -⟩
  rcases h.algorithm_eq with hnull | hempty
  · rw [hnull] at halgorithm
    cases halgorithm
  · rw [hempty] at halgorithm
    cases halgorithm
    exact hne rfl

theorem Authenticates.copy_eq (h : c.Authenticates) : c.copy = .ok c := by
  refine copy_of_not_hidesZeros ?_
  rintro ⟨-, data, halgorithm, -⟩
  rcases h.algorithm_eq with hnull | ⟨hash, hhash⟩
  · rw [hnull] at halgorithm
    cases halgorithm
  · rw [hhash] at halgorithm
    cases halgorithm

/-! ## Every context -/

/-- The contexts that come about by creating one from a text and working with it. -/
inductive Reachable : Context → Prop where
  | create {text : String} {c : Context} (h : create text = .ok c) : Reachable c
  | add {c c' : Context} {data : Bytes} (hc : Reachable c) (h : c.add data = .ok c') : Reachable c'
  | setState {c c' : Context} {state : Bytes} (hc : Reachable c) (h : c.setState state = .ok c') :
    Reachable c'
  | resume {c c' : Context} {s : Scheme} (hc : Reachable c) (h : c.resume s = .ok c') : Reachable c'
  | finalize {c c' : Context} {key : Key} {out : Bytes} (hc : Reachable c)
    (h : c.finalize key = .ok (c', out)) : Reachable c'

theorem hasSmallTables_of_ofScheme {s : Scheme} (h : ofScheme s = .ok c) :
    c.algorithm.HasSmallTables := by
  obtain ⟨-, a, ha, hstate⟩ := ofScheme_eq_ok h
  have hnew : a.HasSmallTables := by
    rcases algorithmOf_eq_ok ha with ⟨-, rfl⟩ | ⟨-, rfl⟩ | ⟨-, hash, hkey, rfl⟩
    · rintro hash ⟨⟩
    · rintro hash ⟨⟩
    · rintro hash' ⟨⟩
      exact (EvaluationHash.of_ofKey?_eq_some hkey).2.2
  rcases hstate with ⟨-, rfl⟩ | hstate
  · exact hnew
  · exact hnew.withState hstate

theorem algorithm_of_setState {state : Bytes} (h : c.setState state = .ok c') :
    c.algorithm.withState state = .ok c'.algorithm := by
  rw [setState] at h
  split at h
  · next algorithm hstate =>
    cases h
    exact hstate
  · cases h

/-- No step of a context changes the size of its tables. -/
theorem Reachable.hasSmallTables (hc : Reachable c) : c.algorithm.HasSmallTables := by
  induction hc with
  | @create text c h =>
    rw [Context.create] at h
    split at h
    · exact hasSmallTables_of_ofScheme h
    · cases h
  | add _ h ih =>
    rw [add_eq (finalized_of_add_eq_ok h)] at h
    cases h
    exact ih.absorbed _
  | setState _ h ih => exact ih.withState (algorithm_of_setState h)
  | resume _ h ih =>
    rw [Context.resume] at h
    split at h
    · split at h
      · next c'' hstate =>
        have halgorithm := algorithm_of_setState hstate
        cases h
        exact ih.withState halgorithm
      · cases h
    · cases h
  | finalize _ h ih =>
    obtain ⟨hfin, hkey⟩ := accepts_of_finalize_eq_ok h
    rw [finalize_eq hfin hkey] at h
    cases h
    exact ih.emptied

/-- A context that is not finalized is made anew from its scheme, and what is made is the context itself,
    unless it hides zeros.  Hidden zeros are lost, and with them the need for a key. -/
theorem scheme_captures (hc : Reachable c) (hfin : c.finalized = false) :
    (¬ c.HidesZeros → ofScheme c.scheme = .ok c)
      ∧ (c.HidesZeros → ∃ c', ofScheme c.scheme = .ok c' ∧ c'.blocks = c.blocks
        ∧ c'.finalKeySize = 0 ∧ c.finalKeySize ≠ 0) := by
  have hscheme := ofScheme_scheme hc.hasSmallTables
  constructor
  · intro h
    rw [recreated_of_not_hidesZeros h] at hscheme
    rw [hscheme, ← hfin]
  · intro h
    rw [recreated_of_hidesZeros h] at hscheme
    obtain ⟨-, data, halgorithm, hne, -⟩ := h
    refine ⟨_, hscheme, rfl, rfl, ?_⟩
    rw [finalKeySize, halgorithm]
    exact fun hzero => hne (List.eq_nil_of_length_eq_zero hzero)

/-- The context of a pad that was given two zeros as its state. -/
def twoZeros : Context where
  algorithm := .pad [0, 0]

theorem create_twoZeros : create "xor::0000" = .ok twoZeros := by rfl

theorem scheme_captures_twoZeros :
    (∃ c', ofScheme twoZeros.scheme = .ok c' ∧ c'.blocks = twoZeros.blocks ∧ c'.finalKeySize = 0
        ∧ twoZeros.finalKeySize ≠ 0)
      ∧ ofScheme (twoZeros.absorbed [5]).scheme = .ok (twoZeros.absorbed [5]) := by
  have hreachable : Reachable twoZeros := .create create_twoZeros
  have hzeros : twoZeros.HidesZeros := ⟨rfl, [0, 0], rfl, by decide, by simp⟩
  refine ⟨(scheme_captures hreachable rfl).2 hzeros, ?_⟩
  refine (scheme_captures (.add hreachable (add_eq rfl [5])) rfl).1 ?_
  rintro ⟨hblocks, -⟩
  cases hblocks

/-- Two zeros that wait for a key are not in the scheme, so their recreation asks for no key. -/
theorem not_recreated_twoZeros :
    ¬ ∀ c, Reachable c → c.finalized = false → ∃ c', ofScheme c.scheme = .ok c'
      ∧ c'.state = c.state ∧ c'.blocks = c.blocks ∧ c'.finalKeySize = c.finalKeySize := by
  intro h
  obtain ⟨c', hscheme, hstate, -⟩ := h twoZeros (.create create_twoZeros) rfl
  have hlost : ofScheme twoZeros.scheme = .ok { algorithm := .pad [] } := rfl
  rw [hlost] at hscheme
  cases hscheme
  cases hstate

end Context

/-- Every message gets copies of the contexts of its channel. -/
theorem Channel.fresh_eq {K : Type} (c : Channel K) (slot : Slot) :
    c.fresh slot = .ok (c.association.get slot).recreated := by
  rw [Channel.fresh, Context.copy_eq]

end OneTimeChannel

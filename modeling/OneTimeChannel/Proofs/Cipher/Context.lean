/-
  What the steps of a context do.

  Two things can go wrong in a context that is not finalized: a final key of the wrong length, and a
  state that is none.  The faults of the layer below cannot occur (`Algorithm.absorb_eq`,
  `Algorithm.finish_eq`), because a context checks a key before it uses it and hands a hash no more than
  a block at a time.  So adding data is a total function of the algorithm, and finishing is one of the
  algorithm and the key.
-/
import OneTimeChannel.Channel.Basic
import OneTimeChannel.Proofs.Cipher.EvaluationHash

namespace OneTimeChannel

namespace Algorithm

/-- The algorithm with more data in it. -/
def absorbed (a : Algorithm) (data : Bytes) : Algorithm :=
  match a with
  | null => null
  | pad held => pad (held ++ data)
  | evaluationHash h => evaluationHash { h with tag := h.digest h.tag data }

theorem absorb_eq (a : Algorithm) (data : Bytes) : a.absorb data = .ok (a.absorbed data) := by
  cases a with
  | null => rfl
  | pad held => rfl
  | evaluationHash h =>
    simp only [absorb, EvaluationHash.absorb, h.tagAfter_eq]
    rfl

/-- The result under a final key that is accepted. -/
def result (a : Algorithm) (key : Key) : Bytes :=
  match a with
  | null => []
  | pad data => List.zipWith (· ^^^ ·) data (key.bytes.take data.length)
  | evaluationHash h => List.zipWith (· ^^^ ·) h.tag.toBytes key.bytes

/-- The algorithm with its state forgotten. -/
def emptied : Algorithm → Algorithm
  | null => null
  | pad _ => pad []
  | evaluationHash h => evaluationHash { h with tag := 0 }

theorem finish_eq {a : Algorithm} {key : Key} (h : a.acceptsFinalKey key = true) :
    a.finish key = .ok (a.emptied, a.result key) := by
  cases a with
  | null => rfl
  | pad data =>
    have hlen : data.length ≤ key.bytes.length := of_decide_eq_true h
    have htake : data.length = (key.bytes.take data.length).length := by
      rw [List.length_take, Nat.min_eq_left hlen]
    simp only [finish, if_neg (Nat.not_lt.2 hlen), Key.length, mask?_of_length_eq htake]
    rfl
  | evaluationHash hash =>
    have hlen : key.bytes.length = hash.bytes := by simpa [acceptsFinalKey, Key.length] using h
    have htag : hash.tag.toBytes.length = key.bytes.length := by
      rw [Gf2.Element.length_toBytes, hlen]
      rfl
    simp only [finish, EvaluationHash.finish, mask?_of_length_eq htag]
    rfl

/-! ## Sizes -/

/-- How much key is needed depends on how much data there is, and not on which. -/
theorem finalKeySize_absorbed (a : Algorithm) {data data' : Bytes} (h : data.length = data'.length) :
    (a.absorbed data).finalKeySize = (a.absorbed data').finalKeySize := by
  cases a with
  | null => rfl
  | pad held => simp [absorbed, finalKeySize, h]
  | evaluationHash hash => rfl

/-- A key of the length that is asked for is accepted. -/
theorem acceptsFinalKey_of_length {a : Algorithm} {key : Key} (h : key.length = a.finalKeySize) :
    a.acceptsFinalKey key = true := by
  cases a with
  | null => rfl
  | pad data => exact decide_eq_true (Nat.le_of_eq h.symm)
  | evaluationHash hash => exact beq_iff_eq.2 h

/-- The result has the size that is announced, under every key that is accepted. -/
theorem length_result {a : Algorithm} {key : Key} (h : a.acceptsFinalKey key = true) :
    (a.result key).length = a.resultSize := by
  cases a with
  | null => rfl
  | pad data =>
    have hkey : data.length ≤ key.bytes.length := of_decide_eq_true h
    simp [result, resultSize, hkey]
  | evaluationHash hash =>
    have hkey : key.bytes.length = 4 * hash.width.words := eq_of_beq h
    simp [result, resultSize, hkey, EvaluationHash.bytes, Gf2.Width.bytes]

end Algorithm

namespace Context

variable {c : Context}

/-- The context with more data in it. -/
def absorbed (c : Context) (data : Bytes) : Context :=
  { c with
    algorithm := c.algorithm.absorbed data
    blocks := c.blocks + UInt64.ofNat (c.algorithm.blockCount data) }

theorem add_eq (h : c.finalized = false) (data : Bytes) : c.add data = .ok (c.absorbed data) := by
  rw [add, if_neg (by rw [h]; decide), c.algorithm.absorb_eq]
  rfl

theorem add_absorbed (h : c.finalized = false) (data data' : Bytes) :
    (c.absorbed data).add data' = .ok ((c.absorbed data).absorbed data') :=
  add_eq (c := c.absorbed data) h data'

theorem add_of_finalized (h : c.finalized = true) {data : Bytes} : c.add data = .error .finalized :=
  if_pos h

theorem finalized_of_add_eq_ok {c' : Context} {data : Bytes} (h : c.add data = .ok c') :
    c.finalized = false := by
  rw [add] at h
  split at h
  · cases h
  · next hfin => simpa using hfin

theorem finalize_eq (h : c.finalized = false) {key : Key} (hkey : c.acceptsFinalKey key = true) :
    c.finalize key
      = .ok ({ c with algorithm := c.algorithm.emptied, finalized := true }, c.algorithm.result key) := by
  rw [finalize, h, if_neg (by decide), if_pos hkey, c.algorithm.finish_eq hkey]

theorem finalize_of_finalized (h : c.finalized = true) {key : Key} : c.finalize key = .error .finalized :=
  if_pos h

theorem finalize_of_not_accepts (h : c.finalized = false) {key : Key}
    (hkey : ¬ c.acceptsFinalKey key = true) : c.finalize key = .error .wrongKey := by
  rw [finalize, h, if_neg (by decide), if_neg hkey]

theorem accepts_of_finalize_eq_ok {key : Key} {r : Context × Bytes} (h : c.finalize key = .ok r) :
    c.finalized = false ∧ c.acceptsFinalKey key = true := by
  rw [finalize] at h
  split at h
  · cases h
  · next hfin =>
    split at h
    · next hkey => exact ⟨by simpa using hfin, hkey⟩
    · cases h

/-- An evaluation hash copies itself. -/
theorem copy_of_evaluationHash {h : EvaluationHash} (hc : c.algorithm = .evaluationHash h) :
    c.copy = .ok c := by
  obtain ⟨algorithm, blocks, finalized⟩ := c
  subst hc
  rfl

end Context

/-! ## Tags -/

namespace Channel

/-- The algorithm that has taken in a header and a payload. -/
def sealedAlgorithm (context : Context) (header : Header) (payload : Bytes) : Algorithm :=
  (context.algorithm.absorbed header.toBytes).absorbed payload

theorem tagOf_eq {context : Context} (h : context.finalized = false) {header : Header}
    {payload : Bytes} {key : Key}
    (hkey : (sealedAlgorithm context header payload).acceptsFinalKey key = true) :
    tagOf context header payload key = .ok ((sealedAlgorithm context header payload).result key) := by
  have hfinal := Context.finalize_eq (c := (context.absorbed header.toBytes).absorbed payload) h hkey
  simp only [tagOf, Context.add_eq h, Context.add_absorbed h, hfinal, bind, Except.bind, pure,
    Except.pure]
  rfl

/-- What is known of a context and a key if there is a tag. -/
theorem accepts_of_tagOf_eq_ok {context : Context} {header : Header} {payload : Bytes} {key : Key}
    {tag : Bytes} (h : tagOf context header payload key = .ok tag) :
    context.finalized = false
      ∧ (sealedAlgorithm context header payload).acceptsFinalKey key = true
      ∧ tag = (sealedAlgorithm context header payload).result key := by
  have hfin : context.finalized = false := by
    by_contra hfin
    have hadd : context.add header.toBytes = .error .finalized :=
      Context.add_of_finalized (by simpa using hfin)
    simp [tagOf, hadd, bind, Except.bind] at h
  have hkey : (sealedAlgorithm context header payload).acceptsFinalKey key = true := by
    simp only [tagOf, Context.add_eq hfin, Context.add_absorbed hfin, bind, Except.bind] at h
    split at h
    · cases h
    · next r hr => exact (Context.accepts_of_finalize_eq_ok hr).2
  refine ⟨hfin, hkey, ?_⟩
  rw [tagOf_eq hfin hkey] at h
  cases h
  rfl

end Channel

end OneTimeChannel

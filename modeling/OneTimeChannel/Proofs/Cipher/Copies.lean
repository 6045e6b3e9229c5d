/-
  Copies of contexts in use.

  Every message is worked on with copies of the contexts of its channel, so a copy must not be told from
  the context that it is a copy of.  A hash copies itself.  A pad is made anew from its scheme, and this
  loses data if the data is all zeros and no block was counted (`Context.HidesZeros`).

  A context that was created without data never comes to that by adding and finalizing.  A pad that is not
  finalized has counted every byte that it holds, and a finalized one holds none (`CountsBytes`), so no
  block is counted only where there is no data.  The count has 64 bits; it comes round to zero only
  behind data that no memory holds.
-/
import OneTimeChannel.Proofs.Cipher.Lifecycle

namespace OneTimeChannel.Context

variable {c c' : Context} {r : Request} {history : List Request}

/-! ## Histories -/

/-- The context after requests, one after the other, whatever comes of them. -/
def after (c : Context) (requests : List Request) : Context :=
  requests.foldl (fun c r => (c.perform r).1) c

/-! ## What a pad has counted -/

/-- A pad has counted the bytes that it holds, or has none after it was finalized. -/
def CountsBytes (c : Context) : Prop :=
  ∀ data, c.algorithm = .pad data →
    if c.finalized then data = [] else c.blocks = UInt64.ofNat data.length

/-- A context that is created without state and block count starts out with no data. -/
theorem countsBytes_of_ofScheme {s : Scheme} (hstate : s.state = []) (hblocks : s.blocks = 0)
    (h : ofScheme s = .ok c) : c.CountsBytes := by
  rw [ofScheme, ofSchemeWith] at h
  split at h
  · cases h
  next a ha =>
  rw [if_pos ⟨hstate, hblocks⟩] at h
  cases h
  rintro data rfl
  have hempty := emptied_of_algorithmOf ha
  cases hempty
  rfl

/-- Bytes that are added are counted. -/
theorem CountsBytes.add (h : c.CountsBytes) {data : Bytes} (hadd : c.add data = .ok c') :
    c'.CountsBytes := by
  have hfin := finalized_of_add_eq_ok hadd
  rw [add_eq hfin] at hadd
  cases hadd
  intro more hmore
  obtain ⟨algorithm, blocks, finalized⟩ := c
  obtain rfl : finalized = false := hfin
  cases algorithm with
  | null => cases hmore
  | evaluationHash hash => cases hmore
  | pad held =>
    cases hmore
    have hheld : blocks = UInt64.ofNat held.length := h held rfl
    show blocks + UInt64.ofNat data.length = UInt64.ofNat (held ++ data).length
    rw [hheld, List.length_append, UInt64.ofNat_add]

/-- Finalizing leaves nothing behind. -/
theorem countsBytes_of_finalize_eq_ok {key : Key} {out : Bytes} (hfinalize : c.finalize key = .ok (c', out)) :
    c'.CountsBytes := by
  obtain ⟨hfin, hkey⟩ := accepts_of_finalize_eq_ok hfinalize
  rw [finalize_eq hfin hkey] at hfinalize
  cases hfinalize
  intro data hdata
  obtain ⟨algorithm, blocks, finalized⟩ := c
  cases algorithm with
  | null => cases hdata
  | evaluationHash hash => cases hdata
  | pad held =>
    cases hdata
    rfl

theorem CountsBytes.perform (h : c.CountsBytes) (hwork : r.isWork = true) :
    (c.perform r).1.CountsBytes := by
  cases r with
  | add data =>
    rw [Context.perform]
    cases hadd : c.add data with
    | ok c' => exact h.add hadd
    | error e => exact h
  | finalize key =>
    rw [Context.perform]
    rcases hfinalize : c.finalize key with e | ⟨c', out⟩
    · exact h
    · exact countsBytes_of_finalize_eq_ok hfinalize
  | _ => cases hwork

theorem CountsBytes.after (h : c.CountsBytes) (hwork : ∀ r ∈ history, r.isWork = true) :
    (c.after history).CountsBytes := by
  induction history generalizing c with
  | nil => exact h
  | cons r rest ih =>
    rw [List.forall_mem_cons] at hwork
    exact ih (h.perform hwork.1) hwork.2

/-- Data that was counted is not hidden, as long as its length fits the count. -/
theorem CountsBytes.not_hidesZeros (h : c.CountsBytes) (hfits : c.state.length < 2 ^ 64) :
    ¬ c.HidesZeros := by
  rintro ⟨hblocks, data, hpad, hne, -⟩
  have hcounted := h data hpad
  split at hcounted
  · exact hne hcounted
  · have hlength : data.length < 2 ^ 64 := by
      rw [state, hpad] at hfits
      exact hfits
    have hzero : (UInt64.ofNat data.length).toNat = 0 := by rw [← hcounted, hblocks]; rfl
    rw [UInt64.toNat_ofNat', Nat.mod_eq_of_lt hlength] at hzero
    exact hne (List.eq_nil_of_length_eq_zero hzero)

/-! ## Copies -/

/-- A context that was created without state and block count can be copied whatever it was given to work on
    since then, finalized or not, and nothing that is asked of the two from then on tells the copy from the
    context.  The length of what the context holds fits 64 bits, as that of any byte string in memory. -/
theorem copy_agrees {text : String} {s : Scheme} (hparse : Scheme.parse text = .ok s)
    (hstate : s.state = []) (hblocks : s.blocks = 0) (hcreate : create text = .ok c)
    (hwork : ∀ r ∈ history, r.isWork = true) (hfits : (c.after history).state.length < 2 ^ 64) :
    ∃ d, (c.after history).copy = .ok d ∧ d.finalized = (c.after history).finalized
      ∧ ∀ requests, d.replies requests = (c.after history).replies requests := by
  rw [create, hparse] at hcreate
  have hcounts := (countsBytes_of_ofScheme hstate hblocks hcreate).after hwork
  exact ⟨c.after history, copy_of_not_hidesZeros (hcounts.not_hidesZeros hfits), rfl, fun _ => rfl⟩

/-- Zeros that are added, and not given as a state; the key in between is too short. -/
def addingZeros : List Request := [.add [0, 0], .finalize ⟨[7]⟩, .add [0]]

/-- A pad that holds nothing but zeros, and the same pad once it is finalized. -/
theorem copy_agrees_addingZeros :
    ∃ c, create "xor" = .ok c
      ∧ (c.after addingZeros).state = [0, 0, 0]
      ∧ (∃ d, (c.after addingZeros).copy = .ok d ∧ d.finalized = false
        ∧ ∀ requests, d.replies requests = (c.after addingZeros).replies requests)
      ∧ ∃ d, (c.after (addingZeros ++ [.finalize ⟨[1, 2, 3]⟩])).copy = .ok d ∧ d.finalized = true
        ∧ ∀ requests,
          d.replies requests = (c.after (addingZeros ++ [.finalize ⟨[1, 2, 3]⟩])).replies requests := by
  have hparse : Scheme.parse "xor" = .ok { algorithm := "xor" } := by rfl
  have hcreate : create "xor" = .ok { algorithm := .pad [] } := by rfl
  exact ⟨_, hcreate, rfl,
    copy_agrees hparse rfl rfl hcreate (by decide) (by decide),
    copy_agrees hparse rfl rfl hcreate (by decide) (by decide)⟩

end OneTimeChannel.Context

/-
  The life of a context.

  What finalizing does is announced: the length of the key and of the result are the length of the state,
  and a key that is accepted never makes the algorithm fail (`Context.finalize_as_announced`).

  A step gives back a new context or an error, so an error cannot have changed anything.  Where a context
  is changed in place this is not for free: a step writes one field after the other, and may find out
  in between that it has to give up.  `InPlace` has the steps in this form, with their writes in the order
  in which they are made.  Finalizing sets the flag before there is a result, and resuming replaces the
  state before the block count and the flag.  Nevertheless every step that fails leaves the context as it
  found it (`Context.eq_of_run_eq_error`): what can be refused is refused before the first write, and the
  algorithm does not fail after it.

  A context is sealed by finalizing it, and only a resumption breaks the seal.  Over a run this is one
  bit of memory, the flag: it is set by every finalization, cleared by every resumption, and kept by
  everything else (`Context.finalized_of_run_eq_ok`), and while it is set nothing is added and nothing
  finalized.  So a run has at most one finalization more than it has resumptions.
-/
import OneTimeChannel.Proofs.Cipher.Resumption

namespace OneTimeChannel

/-! ## Announced sizes -/

namespace Algorithm

variable {a : Algorithm} {key : Key}

/-- What is announced about finishing is how much is held. -/
theorem sizes_eq (a : Algorithm) :
    a.finalKeySize = a.state.length ∧ a.resultSize = a.state.length := by
  cases a with
  | null => exact ⟨rfl, rfl⟩
  | pad data => exact ⟨rfl, rfl⟩
  | evaluationHash h =>
    have hlength : h.bytes = h.tag.toBytes.length := h.tag.length_toBytes.symm
    exact ⟨hlength, hlength⟩

/-- Shorter keys than the announced one are not accepted. -/
theorem finalKeySize_le_of_accepts (h : a.acceptsFinalKey key = true) : a.finalKeySize ≤ key.length := by
  cases a with
  | null => exact Nat.zero_le _
  | pad data => exact of_decide_eq_true h
  | evaluationHash hash => exact Nat.le_of_eq (eq_of_beq h).symm

/-- The keys that are refused are the ones with which an algorithm cannot finish. -/
theorem finish_eq_error_iff :
    (∃ fault, a.finish key = .error fault) ↔ a.acceptsFinalKey key = false := by
  constructor
  · rintro ⟨fault, hfault⟩
    by_contra hkey
    rw [finish_eq (by simpa using hkey)] at hfault
    cases hfault
  · intro hkey
    cases a with
    | null => cases hkey
    | pad data =>
      have hshort : key.length < data.length := Nat.lt_of_not_le (of_decide_eq_false hkey)
      exact ⟨_, if_pos hshort⟩
    | evaluationHash h =>
      have hlength : h.tag.toBytes.length ≠ key.bytes.length := by
        rw [h.tag.length_toBytes]
        exact Ne.symm (ne_of_beq_false hkey)
      have hmask : mask? h.tag.toBytes key.bytes = none := if_neg hlength
      exact ⟨.unequalLengths, by rw [finish, EvaluationHash.finish, hmask]⟩

end Algorithm

namespace Context

/-- A context that is not finalized keeps what it announces, whatever state it was given.  Keys of the
    announced length are accepted and shorter ones are not; every key that is accepted gives a result of
    the announced length, and any other is refused as a wrong key.  The algorithm is asked to finish with
    accepted keys only, and it can finish with exactly these. -/
theorem finalize_as_announced {c : Context} (h : c.finalized = false) :
    c.finalKeySize = c.state.length ∧ c.resultSize = c.state.length
      ∧ (∀ key : Key, key.length = c.finalKeySize → c.acceptsFinalKey key = true)
      ∧ (∀ key : Key, c.acceptsFinalKey key = true → c.finalKeySize ≤ key.length)
      ∧ (∀ key : Key, (∃ c' out, c.finalize key = .ok (c', out)) ↔ c.acceptsFinalKey key = true)
      ∧ (∀ (key : Key) (c' : Context) (out : Bytes),
        c.finalize key = .ok (c', out) → out.length = c.resultSize)
      ∧ (∀ (key : Key) (e : Error), c.finalize key = .error e → e = .wrongKey)
      ∧ ∀ key : Key,
        (∃ fault, c.algorithm.finish key = .error fault) ↔ c.acceptsFinalKey key = false := by
  obtain ⟨hkeySize, hresultSize⟩ := c.algorithm.sizes_eq
  refine ⟨hkeySize, hresultSize, fun key => Algorithm.acceptsFinalKey_of_length,
    fun key => Algorithm.finalKeySize_le_of_accepts, ?_, ?_, ?_, fun key => Algorithm.finish_eq_error_iff⟩
  · intro key
    constructor
    · rintro ⟨c', out, hok⟩
      exact (accepts_of_finalize_eq_ok hok).2
    · exact fun hkey => ⟨_, _, finalize_eq h hkey⟩
  · intro key c' out hok
    have hkey := (accepts_of_finalize_eq_ok hok).2
    rw [finalize_eq h hkey] at hok
    cases hok
    exact Algorithm.length_result hkey
  · intro key e herror
    by_cases hkey : c.acceptsFinalKey key = true
    · rw [finalize_eq h hkey] at herror
      cases herror
    · rw [finalize_of_not_accepts h hkey] at herror
      cases herror
      rfl

/-- A pad that was given three bytes as its state. -/
def threeBytes : Context where
  algorithm := .pad [1, 2, 3]
  blocks := 3

theorem finalize_as_announced_threeBytes :
    threeBytes.finalized = false ∧ threeBytes.resultSize = 3
      ∧ (∀ key : Key, key.length = 3 → threeBytes.acceptsFinalKey key = true)
      ∧ (∃ c' out, threeBytes.finalize ⟨[4, 5, 6, 7]⟩ = .ok (c', out))
      ∧ ¬ ∃ c' out, threeBytes.finalize ⟨[4, 5]⟩ = .ok (c', out) := by
  obtain ⟨-, hresult, hlength, -, hok, -⟩ := finalize_as_announced (c := threeBytes) rfl
  refine ⟨rfl, hresult, hlength, (hok _).2 (by decide), fun h => ?_⟩
  exact absurd ((hok _).1 h) (by decide)

/-! ## Steps in place -/

/-- A step on a context that is changed where it is.  It ends with a value or an error, and in both cases
    with the context as it is by then. -/
abbrev InPlace (α : Type) := EStateM Error Context α

namespace InPlace

def add (data : Bytes) : InPlace Unit := do
  if (← get).finalized then throw .finalized
  let held := (← get).algorithm
  match held.absorb data with
  | .ok algorithm =>
    modify fun c => { c with algorithm }
    modify fun c => { c with blocks := c.blocks + UInt64.ofNat (held.blockCount data) }
  | .error fault => throw (.broken fault)

/-- The flag is set before the algorithm is asked for the result. -/
def finalize (key : Key) : InPlace Bytes := do
  if (← get).finalized then throw .finalized
  if !(← get).acceptsFinalKey key then throw .wrongKey
  modify fun c => { c with finalized := true }
  match (← get).algorithm.finish key with
  | .ok (algorithm, out) =>
    modify fun c => { c with algorithm }
    return out
  | .error fault => throw (.broken fault)

def setState (state : Bytes) : InPlace Unit := do
  match (← get).algorithm.withState state with
  | .ok algorithm => modify fun c => { c with algorithm }
  | .error flaw => throw (.invalidState flaw)

/-- The state is replaced before the block count, and the flag is cleared last. -/
def resume (s : Scheme) : InPlace Unit := do
  if !(← get).isCompatible s then throw .incompatible
  setState s.state
  modify fun c => { c with blocks := s.blocks }
  modify fun c => { c with finalized := false }

end InPlace

/-- What a request does to a context in place. -/
def Request.inPlace : Request → InPlace Reply
  | .add data => (fun _ => .done) <$> InPlace.add data
  | .finalize key => .bytes <$> InPlace.finalize key
  | .setState bytes => (fun _ => .done) <$> InPlace.setState bytes
  | .resume s => (fun _ => .done) <$> InPlace.resume s
  | .state => (fun c => .bytes c.state) <$> get
  | .blocks => (fun c => .count c.blocks) <$> get
  | .scheme => (fun c => .description c.scheme) <$> get

namespace InPlace

variable {c c' : Context}

/-- What a step in place comes to, told by the context that it gives back. -/
def result {α : Type} (c : Context) : Except Error (Context × α) → EStateM.Result Error Context α
  | .ok (c', a) => .ok a c'
  | .error e => .error e c

theorem run_add (c : Context) (data : Bytes) :
    (add data).run c = result c ((c.add data).map fun c' => (c', ())) := by
  cases hfin : c.finalized with
  | true =>
    rw [add_of_finalized hfin]
    simp [add, hfin, result, Except.map]
  | false =>
    rw [add_eq hfin, absorbed]
    simp [add, hfin, c.algorithm.absorb_eq, result, Except.map]

theorem run_finalize (c : Context) (key : Key) :
    (finalize key).run c = result c (c.finalize key) := by
  cases hfin : c.finalized with
  | true =>
    rw [finalize_of_finalized hfin]
    simp [finalize, hfin, result]
  | false =>
    cases hkey : c.acceptsFinalKey key with
    | true =>
      -- the flag is set already, and only a failing algorithm could leave it so without a result
      rw [finalize_eq hfin hkey]
      simp [finalize, hfin, hkey, Algorithm.finish_eq hkey, result, -bind_pure_comp]
    | false =>
      rw [finalize_of_not_accepts hfin (by simp [hkey])]
      simp [finalize, hfin, hkey, result]

theorem run_setState (c : Context) (state : Bytes) :
    (setState state).run c = result c ((c.setState state).map fun c' => (c', ())) := by
  rw [Context.setState]
  cases hstate : c.algorithm.withState state with
  | ok algorithm => simp [setState, hstate, result, Except.map]
  | error flaw => simp [setState, hstate, result, Except.map]

theorem run_resume (c : Context) (s : Scheme) :
    (resume s).run c = result c ((c.resume s).map fun c' => (c', ())) := by
  rw [Context.resume]
  cases hcompatible : c.isCompatible s with
  | true =>
    -- the state is looked at in the middle, but before anything is written
    cases hstate : c.setState s.state with
    | ok c' => simp [resume, hcompatible, run_setState, hstate, result, Except.map]
    | error e => simp [resume, hcompatible, run_setState, hstate, result, Except.map]
  | false => simp [resume, hcompatible, result, Except.map]

theorem run_map {α β : Type} (f : α → β) {step : InPlace α} {outcome : Except Error (Context × α)}
    (h : step.run c = result c outcome) :
    (f <$> step).run c = result c (outcome.map (Prod.map id f)) := by
  have hmap : (f <$> step).run c = EStateM.map f step c := rfl
  have hstep : step c = result c outcome := h
  rw [hmap, EStateM.map, hstep]
  cases outcome <;> rfl

/-- A request in place comes to what it comes to where a step gives back a new context. -/
theorem run_inPlace (c : Context) (r : Request) :
    r.inPlace.run c = match (c.perform r).2 with
      | .refused e => .error e c
      | reply => .ok reply (c.perform r).1 := by
  cases r with
  | add data =>
    rw [Request.inPlace, run_map _ (run_add c data), perform]
    cases c.add data <;> rfl
  | finalize key =>
    rw [Request.inPlace, run_map _ (run_finalize c key), perform]
    rcases c.finalize key with e | ⟨c', out⟩ <;> rfl
  | setState state =>
    rw [Request.inPlace, run_map _ (run_setState c state), perform]
    cases c.setState state <;> rfl
  | resume s =>
    rw [Request.inPlace, run_map _ (run_resume c s), perform]
    cases c.resume s <;> rfl
  | state => rfl
  | blocks => rfl
  | scheme => rfl

end InPlace

variable {c c' : Context} {r : Request} {reply : Reply} {e : Error}

/-- A request that fails in place leaves the context as it found it. -/
theorem eq_of_run_eq_error (h : r.inPlace.run c = .error e c') : c' = c := by
  rw [InPlace.run_inPlace] at h
  split at h
  · cases h
    rfl
  · cases h

/-- The context that a request leads to where it is granted. -/
def Request.Leads (c c' : Context) : Request → Prop
  | .add data => c.add data = .ok c'
  | .finalize key => ∃ out, c.finalize key = .ok (c', out)
  | .setState bytes => c.setState bytes = .ok c'
  | .resume s => c.resume s = .ok c'
  | .state => c' = c
  | .blocks => c' = c
  | .scheme => c' = c

theorem leads_of_run_eq_ok (h : r.inPlace.run c = .ok reply c') : r.Leads c c' := by
  rw [InPlace.run_inPlace] at h
  cases r with
  | add data =>
    cases hadd : c.add data with
    | ok c₁ =>
      rw [perform, hadd] at h
      cases h
      exact hadd
    | error e =>
      rw [perform, hadd] at h
      cases h
  | finalize key =>
    rcases hfinalize : c.finalize key with e | ⟨c₁, out⟩
    · rw [perform, hfinalize] at h
      cases h
    · rw [perform, hfinalize] at h
      cases h
      exact ⟨out, hfinalize⟩
  | setState state =>
    cases hstate : c.setState state with
    | ok c₁ =>
      rw [perform, hstate] at h
      cases h
      exact hstate
    | error e =>
      rw [perform, hstate] at h
      cases h
  | resume s =>
    cases hresume : c.resume s with
    | ok c₁ =>
      rw [perform, hresume] at h
      cases h
      exact hresume
    | error e =>
      rw [perform, hresume] at h
      cases h
  | state =>
    cases h
    rfl
  | blocks =>
    cases h
    rfl
  | scheme =>
    cases h
    rfl

/-! ## The seal -/

/-- Adding data and finalizing, which is the work of a context. -/
def Request.isWork : Request → Bool
  | .add _ => true
  | .finalize _ => true
  | _ => false

def Request.isFinalize : Request → Bool
  | .finalize _ => true
  | _ => false

def Request.isResume : Request → Bool
  | .resume _ => true
  | _ => false

theorem finalized_of_setState_eq_ok {state : Bytes} (h : c.setState state = .ok c') :
    c'.finalized = c.finalized := by
  rw [setState] at h
  split at h
  · cases h
    rfl
  · cases h

theorem finalized_of_resume_eq_ok {s : Scheme} (h : c.resume s = .ok c') : c'.finalized = false := by
  rw [resume] at h
  split at h
  · split at h
    · cases h
      rfl
    · cases h
  · cases h

/-- A request that is granted sets the flag if it is for finalizing, clears it if it is for resuming, and
    keeps it in any other case.  Work is granted only while the flag is not set. -/
theorem finalized_of_run_eq_ok (h : r.inPlace.run c = .ok reply c') :
    c'.finalized = (r.isFinalize || !r.isResume && c.finalized)
      ∧ (r.isWork = true → c.finalized = false) := by
  have hleads := leads_of_run_eq_ok h
  cases r with
  | add data =>
    have hadd : c.add data = .ok c' := hleads
    have hfin := finalized_of_add_eq_ok hadd
    rw [add_eq hfin] at hadd
    cases hadd
    exact ⟨rfl, fun _ => hfin⟩
  | finalize key =>
    obtain ⟨out, hfinalize⟩ := hleads
    obtain ⟨hfin, hkey⟩ := accepts_of_finalize_eq_ok hfinalize
    rw [finalize_eq hfin hkey] at hfinalize
    cases hfinalize
    exact ⟨rfl, fun _ => hfin⟩
  | setState state => exact ⟨finalized_of_setState_eq_ok hleads, nofun⟩
  | resume s => exact ⟨finalized_of_resume_eq_ok hleads, nofun⟩
  | state => exact ⟨congrArg finalized hleads, nofun⟩
  | blocks => exact ⟨congrArg finalized hleads, nofun⟩
  | scheme => exact ⟨congrArg finalized hleads, nofun⟩

/-- A finalization takes the one place that there is, and a resumption makes room for the next. -/
theorem room_of_run_eq_ok (h : r.inPlace.run c = .ok reply c') :
    r.isFinalize.toNat + c.finalized.toNat ≤ r.isResume.toNat + c'.finalized.toNat := by
  obtain ⟨hflag, hwork⟩ := finalized_of_run_eq_ok h
  rw [hflag]
  cases r with
  | finalize key =>
    rw [hwork rfl]
    rfl
  | resume s =>
    have hroom := Bool.toNat_le c.finalized
    simpa [Request.isFinalize, Request.isResume] using hroom
  | _ => simp [Request.isFinalize, Request.isResume]

/-- A sealed context refuses work. -/
theorem run_of_finalized (hfin : c.finalized = true) (hwork : r.isWork = true) :
    r.inPlace.run c = .error .finalized c := by
  rw [InPlace.run_inPlace]
  cases r with
  | add data => rw [perform, add_of_finalized hfin]
  | finalize key => rw [perform, finalize_of_finalized hfin]
  | _ => cases hwork

/-! ## Runs -/

/-- What comes of requests, one after the other: each with the reply or the error that it ends with. -/
def trace (c : Context) : List Request → List (Request × Except Error Reply)
  | [] => []
  | r :: rest =>
    match r.inPlace.run c with
    | .ok reply c' => (r, .ok reply) :: c'.trace rest
    | .error e c' => (r, .error e) :: c'.trace rest

/-- How many requests of a kind were granted. -/
def granted (kind : Request → Bool) (events : List (Request × Except Error Reply)) : Nat :=
  events.countP fun event => kind event.1 && event.2.isOk

variable {kind : Request → Bool} {events : List (Request × Except Error Reply)}
  {requests : List Request}

@[simp] theorem granted_cons_ok :
    granted kind ((r, .ok reply) :: events) = granted kind events + (kind r).toNat := by
  rw [granted, List.countP_cons, granted]
  cases hkind : kind r <;> simp [Except.isOk, Except.toBool]

@[simp] theorem granted_cons_error :
    granted kind ((r, .error e) :: events) = granted kind events := by
  simp [granted, Except.isOk, Except.toBool]

/-- Until it is resumed, a sealed context refuses all work. -/
theorem trace_of_finalized (hfin : c.finalized = true)
    (hsealed : granted Request.isResume (c.trace requests) = 0) :
    ∀ event ∈ c.trace requests, event.1.isWork = true → event.2 = .error .finalized := by
  induction requests generalizing c with
  | nil => nofun
  | cons r rest ih =>
    rw [trace] at hsealed ⊢
    cases hrun : r.inPlace.run c with
    | ok reply c' =>
      -- what is granted is no work, and the flag stays
      obtain ⟨hflag, hwork⟩ := finalized_of_run_eq_ok hrun
      rw [hrun, granted_cons_ok] at hsealed
      have hresume : r.isResume = false := by
        rw [← Bool.toNat_eq_zero]
        omega
      have hfin' : c'.finalized = true := by simp [hflag, hresume, hfin]
      rw [List.forall_mem_cons]
      refine ⟨fun h => ?_, ih hfin' (by omega)⟩
      rw [hwork h] at hfin
      cases hfin
    | error e c' =>
      obtain rfl := eq_of_run_eq_error hrun
      rw [hrun, granted_cons_error] at hsealed
      rw [List.forall_mem_cons]
      refine ⟨fun hwork => ?_, ih hfin hsealed⟩
      rw [run_of_finalized hfin hwork] at hrun
      cases hrun
      rfl

/-- Of the finalizations of a run at most one is not followed by a resumption, and none if the context was
    sealed to begin with. -/
theorem granted_isFinalize_le (c : Context) (requests : List Request) :
    granted Request.isFinalize (c.trace requests) + c.finalized.toNat
      ≤ granted Request.isResume (c.trace requests) + 1 := by
  induction requests generalizing c with
  | nil => exact Nat.le_trans (Nat.le_of_eq (Nat.zero_add _)) (Bool.toNat_le c.finalized)
  | cons r rest ih =>
    rw [trace]
    cases hrun : r.inPlace.run c with
    | ok reply c' =>
      have hroom := room_of_run_eq_ok hrun
      have hrest := ih c'
      simp only [granted_cons_ok]
      omega
    | error e c' =>
      rw [eq_of_run_eq_error hrun]
      simpa only [granted_cons_error] using ih c

/-- A finalization in place that is not refused. -/
theorem run_finalize_of_accepts (hfin : c.finalized = false) {key : Key}
    (hkey : c.acceptsFinalKey key = true) :
    ∃ out c', (Request.finalize key).inPlace.run c = .ok (.bytes out) c' := by
  rw [InPlace.run_inPlace, perform, finalize_eq hfin hkey]
  exact ⟨_, _, rfl⟩

/-- Whatever a context is asked to do in place, and in whatever state it is: what fails changes nothing,
    so after a wrong key the right one has the effect that it would have had at once, and is not refused.
    Once the context is finalized, all work is refused for as long as no resumption is granted.  So no run
    has more than one finalization more than it has resumptions. -/
theorem lifecycle (c : Context) :
    (∀ (r : Request) (e : Error) (c' : Context), r.inPlace.run c = .error e c' → c' = c)
      ∧ (∀ (wrong key : Key) (c' : Context),
        (Request.finalize wrong).inPlace.run c = .error .wrongKey c' →
        (Request.finalize key).inPlace.run c' = (Request.finalize key).inPlace.run c
          ∧ (c.acceptsFinalKey key = true →
            ∃ out c'', (Request.finalize key).inPlace.run c' = .ok (.bytes out) c''))
      ∧ (∀ (key : Key) (reply : Reply) (c' : Context),
        (Request.finalize key).inPlace.run c = .ok reply c' →
        ∀ requests, granted Request.isResume (c'.trace requests) = 0 →
        ∀ event ∈ c'.trace requests, event.1.isWork = true → event.2 = .error .finalized)
      ∧ ∀ requests, granted Request.isFinalize (c.trace requests)
        ≤ granted Request.isResume (c.trace requests) + 1 := by
  refine ⟨fun _ _ _ => eq_of_run_eq_error, ?retry, ?sealed, ?count⟩
  case retry =>
    intro wrong key c' hwrong
    have hfin : c.finalized = false := by
      by_contra hfin
      rw [run_of_finalized (by simpa using hfin) rfl] at hwrong
      cases hwrong
    rw [eq_of_run_eq_error hwrong]
    exact ⟨rfl, run_finalize_of_accepts hfin⟩
  case sealed =>
    intro key reply c' hok requests hresume
    exact trace_of_finalized (finalized_of_run_eq_ok hok).1 hresume
  case count =>
    intro requests
    have hle := granted_isFinalize_le c requests
    omega

/-- A pad is finalized with a key that is too short, then with one that is long enough, and then once more
    after it was resumed; in between it is given a state and more data. -/
theorem lifecycle_threeBytes :
    (∃ c', (Request.finalize ⟨[9]⟩).inPlace.run threeBytes = .error .wrongKey c' ∧ c' = threeBytes
        ∧ ∃ out c'', (Request.finalize ⟨[4, 5, 6]⟩).inPlace.run c' = .ok (.bytes out) c'')
      ∧ (∃ c', (Request.finalize ⟨[4, 5, 6]⟩).inPlace.run threeBytes = .ok (.bytes [5, 7, 5]) c'
        ∧ ∀ event ∈ c'.trace [.setState [7], .add [8], .finalize ⟨[9]⟩], event.1.isWork = true →
          event.2 = .error .finalized)
      ∧ granted Request.isFinalize (threeBytes.trace [.finalize ⟨[9]⟩, .finalize ⟨[4, 5, 6]⟩,
          .setState [7], .add [8], .resume threeBytes.scheme, .finalize ⟨[4, 5, 6]⟩])
        ≤ granted Request.isResume (threeBytes.trace [.finalize ⟨[9]⟩, .finalize ⟨[4, 5, 6]⟩,
          .setState [7], .add [8], .resume threeBytes.scheme, .finalize ⟨[4, 5, 6]⟩]) + 1 := by
  obtain ⟨hsame, hretry, hsealed, hcount⟩ := lifecycle threeBytes
  refine ⟨⟨threeBytes, rfl, hsame (.finalize ⟨[9]⟩) _ _ rfl, ?_⟩, ?_, hcount _⟩
  · exact (hretry ⟨[9]⟩ ⟨[4, 5, 6]⟩ threeBytes rfl).2 (by decide)
  · exact ⟨_, rfl, hsealed ⟨[4, 5, 6]⟩ _ _ rfl _ rfl⟩

end Context

end OneTimeChannel

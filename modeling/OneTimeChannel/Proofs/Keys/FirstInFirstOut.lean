/-
  First in, first out.

  Keys to send with are meant to be handed out from the front of the queue that the outgoing stock is, and
  are handed out from the lowest id on.  This is the same as long as all ids that are held are of one round.
  When they come round while keys are held, it is not: then the newest quanta go first, and what is left is
  no queue any more.

  So quanta go in the order in which they came exactly as long as none goes in such a moment
  (`first_in_first_out_iff`), and in particular before the ids come round for the first time.  Such moments
  do not need many quanta at a time.  They come when the stream has gone on for 2 ^ 32 quanta and some of
  the last ones were not used yet (`not_first_in_first_out`).
-/
import OneTimeChannel.Proofs.Keys.Fetching
import OneTimeChannel.Proofs.Keys.Rounds

namespace OneTimeChannel

open KeyStock (idsFrom quantaFor quantumAt)

namespace KeyBuffer

open KeyStock (Queues InRow quantaAt idOf inRow_nil inRow_append)

variable {q n : Nat} {stream : Bytes} {b : KeyBuffer} {uses : List KeyUse}

/-! ## What a step does -/

/-- The ids of the quanta to send with that a step uses up. -/
def idsSpent (b : KeyBuffer) (u : KeyUse) : List UInt32 := b.outgoing.idsBeyond (b.use u).outgoing

/-- A step that uses up no quantum to send with leaves their stock alone or delivers to it; any other step
    takes a key that starts with the lowest id. -/
theorem idsSpent_cases (hzero : 0 ∉ b.outgoing.held) (u : KeyUse) :
    (b.idsSpent u = []
        ∧ (KeyUse.delivered .outgoing [u] = [] ∧ (b.use u).outgoing = b.outgoing
          ∨ (b.use u).outgoing = b.outgoing.push b.quantum (KeyUse.delivered .outgoing [u])))
      ∨ ∃ first length key, quantaFor b.quantum length ≠ 0
        ∧ b.idsSpent u = idsFrom first (quantaFor b.quantum length)
        ∧ KeyUse.delivered .outgoing [u] = []
        ∧ b.outgoing.held.minKey? = some first
        ∧ b.outgoing.take b.quantum first length = .ok (key, (b.use u).outgoing) := by
  rcases stock_use_cases b u .outgoing with hsame | hpush | ⟨hnone, first, length, key, hmin, htake⟩
  · replace hsame : _ ∧ (b.use u).outgoing = b.outgoing := hsame
    refine Or.inl ⟨?_, Or.inl hsame⟩
    rw [idsSpent, hsame.2]
    exact KeyStock.idsBeyond_eq_nil fun _ hid => hid
  · replace hpush : (b.use u).outgoing = b.outgoing.push b.quantum _ := hpush
    refine Or.inl ⟨?_, Or.inr hpush⟩
    rw [idsSpent, hpush]
    exact KeyStock.idsBeyond_eq_nil fun _ hid => KeyStock.mem_held_push hid _ _
  · replace htake : b.outgoing.take b.quantum first length = .ok (key, (b.use u).outgoing) := htake
    have hspent : b.idsSpent u = _ := (KeyStock.idsBeyond_take hzero htake).1
    by_cases hcount : quantaFor b.quantum length = 0
    · refine Or.inl ⟨by rw [hspent, hcount, KeyStock.idsFrom_zero], Or.inl ⟨hnone, ?_⟩⟩
      obtain ⟨-, heq⟩ := KeyStock.take_eq_ok_iff.1 htake
      rw [(Prod.mk.inj heq).2, hcount]
      rfl
    · have hlength := KeyStock.ne_zero_of_quantaFor_ne_zero b.quantum_pos hcount
      exact Or.inr ⟨first, length, key, hcount, hspent, hnone, hmin rfl hlength, htake⟩

/-- One step keeps the queue and takes what is at its front, if it takes nothing while ids of two rounds
    are held. -/
theorem queues_use (h : Queues b.quantum stream n b.outgoing) (u : KeyUse)
    (hnow : b.outgoing.held.size < 2 ^ 32 - 1) (hnext : (b.use u).outgoing.held.size < 2 ^ 32 - 1)
    (hone : b.idsSpent u ≠ [] → b.outgoing.OneRound) :
    InRow n (b.idsSpent u)
      ∧ n + (b.idsSpent u).length ≤ stream.length / b.quantum
      ∧ Queues b.quantum (stream ++ KeyUse.delivered .outgoing [u]) (n + (b.idsSpent u).length)
        (b.use u).outgoing := by
  rcases idsSpent_cases h.zero_not_mem_held u with
    ⟨hspent, ⟨hnone, hsame⟩ | hpush⟩ | ⟨first, length, key, hcount, hspent, hnone, hmin, htake⟩
  · rw [hspent, hnone, hsame, List.append_nil]
    exact ⟨inRow_nil n, h.le, h⟩
  · rw [hspent, hpush]
    rw [hpush] at hnext
    exact ⟨inRow_nil n, h.le, h.push _ hnext⟩
  · have hsome : b.idsSpent u ≠ [] := by
      rwa [hspent, Ne, ← List.length_eq_zero_iff, KeyStock.length_idsFrom]
    obtain ⟨i, hi, -⟩ := h.mem_held_iff.1 (Std.TreeMap.minKey?_eq_some_iff_mem_and_forall.1 hmin).1
    have hfront := h.minKey?_of_oneRound hnow (hone hsome) (by omega)
    obtain ⟨hrow, hholds⟩ :=
      h.toHoldsRow.take htake fun _ => Option.some.inj (hmin.symm.trans hfront)
    rw [hspent, hnone, List.append_nil, InRow, KeyStock.length_idsFrom]
    refine ⟨hrow, hholds.le, hholds, ?_⟩
    obtain ⟨-, heq⟩ := KeyStock.take_eq_ok_iff.1 htake
    rw [(Prod.mk.inj heq).2]
    exact h.pending_eq

/-- A step that takes something while ids of two rounds are held does not start at the front. -/
theorem not_inRow_idsSpent (h : Queues b.quantum stream n b.outgoing) {u : KeyUse}
    (hnow : b.outgoing.held.size < 2 ^ 32 - 1) (hsome : b.idsSpent u ≠ [])
    (htwo : ¬ b.outgoing.OneRound) : ¬ InRow n (b.idsSpent u) := by
  rcases idsSpent_cases h.zero_not_mem_held u with
    ⟨hnil, -⟩ | ⟨first, length, key, hcount, hspent, -, hmin, -⟩
  · exact absurd hnil hsome
  · obtain ⟨hlowest, hne⟩ := h.minKey?_of_two_rounds hnow htwo
    obtain rfl : first = 1 := Option.some.inj (hmin.symm.trans hlowest)
    obtain ⟨count, hcount⟩ := Nat.exists_eq_add_one_of_ne_zero hcount
    rw [hspent, hcount, InRow, KeyStock.length_idsFrom, KeyStock.idsFrom_succ, List.range'_succ,
      List.map_cons]
    intro hrow
    exact hne (List.cons.inj hrow).1.symm

/-! ## What a run does -/

/-- Fewer quanta to send with are held than there are ids, now and after every step of a run. -/
def HoldsFew (b : KeyBuffer) : List KeyUse → Prop
  | [] => b.outgoing.held.size < 2 ^ 32 - 1
  | u :: rest => b.outgoing.held.size < 2 ^ 32 - 1 ∧ (b.use u).HoldsFew rest

/-- No step of a run uses up a quantum to send with while ids of two rounds are held. -/
def InOneRound (b : KeyBuffer) : List KeyUse → Prop
  | [] => True
  | u :: rest => (b.idsSpent u ≠ [] → b.outgoing.OneRound) ∧ (b.use u).InOneRound rest

/-- The quanta to send with that are used up over a run, in this order. -/
def quantaSpent (b : KeyBuffer) : List KeyUse → List Key
  | [] => []
  | u :: rest => ((b.idsSpent u).map fun id => b.outgoing.held.getD id .empty) ++ (b.use u).quantaSpent rest

theorem HoldsFew.now (h : b.HoldsFew uses) : b.outgoing.held.size < 2 ^ 32 - 1 := by
  cases uses with
  | nil => exact h
  | cons u rest => exact h.1

theorem departures_cons (b : KeyBuffer) (u : KeyUse) (rest : List KeyUse) :
    departures .outgoing b (u :: rest) = b.idsSpent u ++ departures .outgoing (b.use u) rest := rfl

/-- A run that takes nothing while ids of two rounds are held takes the quanta of the stream from the front
    of the queue on, and leaves the others. -/
theorem queues_useAll (h : Queues b.quantum stream n b.outgoing) (hfew : b.HoldsFew uses)
    (hone : b.InOneRound uses) :
    InRow n (departures .outgoing b uses)
      ∧ b.quantaSpent uses = quantaAt b.quantum (stream ++ KeyUse.delivered .outgoing uses) n
        (departures .outgoing b uses).length
      ∧ Queues b.quantum (stream ++ KeyUse.delivered .outgoing uses)
        (n + (departures .outgoing b uses).length) (b.useAll uses).outgoing := by
  induction uses generalizing b stream n with
  | nil =>
    rw [KeyUse.delivered, List.append_nil]
    exact ⟨inRow_nil n, rfl, h⟩
  | cons u rest ih =>
    obtain ⟨hrow, hroom, hstep⟩ := queues_use h u hfew.1 hfew.2.now hone.1
    have hspent := h.map_getD hrow hroom
    rw [← quantum_use b u] at hstep
    obtain ⟨hrow', hspent', hqueues⟩ := ih hstep hfew.2 hone.2
    rw [quantum_use] at hqueues hspent'
    rw [departures_cons, List.length_append, ← Nat.add_assoc, delivered_cons, ← List.append_assoc]
    refine ⟨inRow_append.2 ⟨hrow, hrow'⟩, ?_, hqueues⟩
    rw [quantaSpent, hspent, hspent', KeyStock.quantaAt_add, List.append_assoc stream,
      KeyStock.quantaAt_append hroom]

/-- The run takes what is at the front of the queue exactly as long as no step takes anything while ids of
    two rounds are held. -/
theorem inRow_departures_iff (h : Queues b.quantum stream n b.outgoing) (hfew : b.HoldsFew uses) :
    InRow n (departures .outgoing b uses) ↔ b.InOneRound uses := by
  induction uses generalizing b stream n with
  | nil => exact ⟨fun _ => trivial, fun _ => inRow_nil n⟩
  | cons u rest ih =>
    rw [departures_cons, inRow_append, InOneRound]
    by_cases hone : b.idsSpent u ≠ [] → b.outgoing.OneRound
    · obtain ⟨hrow, -, hstep⟩ := queues_use h u hfew.1 hfew.2.now hone
      rw [← quantum_use b u] at hstep
      exact and_congr (iff_of_true hrow hone) (ih hstep hfew.2)
    · refine iff_of_false (fun hrow => ?_) fun hall => hone hall.1
      rw [Classical.not_imp] at hone
      exact not_inRow_idsSpent h hfew.1 hone.1 hone.2 hrow.1

/-- Before the ids come round for the first time, they are all of one round. -/
theorem inOneRound_of_le (h : Queues b.quantum stream n b.outgoing) (hfew : b.HoldsFew uses)
    (hbound : (stream ++ KeyUse.delivered .outgoing uses).length / b.quantum ≤ 2 ^ 32 - 1) :
    b.InOneRound uses := by
  induction uses generalizing b stream n with
  | nil => trivial
  | cons u rest ih =>
    rw [delivered_cons, ← List.append_assoc] at hbound
    have hsofar : stream.length / b.quantum ≤ 2 ^ 32 - 1 :=
      Nat.le_trans (Nat.div_le_div_right (by simp)) hbound
    have hone : b.outgoing.OneRound := by
      rw [h.oneRound_iff hfew.1]
      omega
    obtain ⟨-, -, hstep⟩ := queues_use h u hfew.1 hfew.2.now fun _ => hone
    rw [← quantum_use b u] at hstep hbound
    exact ⟨fun _ => hone, ih hstep hfew.2 hbound⟩

/-- First in, first out.  Over any run of a new buffer in which fewer quanta to send with are held at any
    time than there are ids, the quanta that go are those of the stream, one after the other from the first
    on, exactly if none goes while ids of two rounds are held.  Then they go with the bytes that were
    delivered, and all others are held.  This is so in every run that delivers no more quanta than there are
    ids. -/
theorem first_in_first_out_iff {q : Nat} {b : KeyBuffer} (hb : ofQuantum q = .ok b) {uses : List KeyUse}
    (hfew : b.HoldsFew uses) :
    (InRow 0 (departures .outgoing b uses) ↔ b.InOneRound uses)
      ∧ (b.InOneRound uses →
        b.quantaSpent uses
            = quantaAt q (KeyUse.delivered .outgoing uses) 0 (departures .outgoing b uses).length
          ∧ Queues q (KeyUse.delivered .outgoing uses) (departures .outgoing b uses).length
            (b.useAll uses).outgoing)
      ∧ ((KeyUse.delivered .outgoing uses).length / q ≤ 2 ^ 32 - 1 → b.InOneRound uses) := by
  obtain ⟨rfl, houtgoing, -⟩ := ofQuantum_eq_ok hb
  have hstart : Queues b.quantum [] 0 b.outgoing := by
    rw [houtgoing]
    exact KeyStock.queues_empty _
  refine ⟨inRow_departures_iff hstart hfew, fun hone => ?_, fun hbound => ?_⟩
  · have hrun := queues_useAll hstart hfew hone
    rw [List.nil_append, Nat.zero_add] at hrun
    exact hrun.2
  · exact inOneRound_of_le hstart hfew (by rwa [List.nil_append])

/-- Eight bytes to send with, delivered in two pieces; a key of three bytes is fetched after each. -/
def fetchingTwice : List KeyUse :=
  [.push .outgoing [1, 2, 3, 4, 5], .fetchOutgoing 3, .push .outgoing [6, 7, 8], .fetchOutgoing 3]

theorem first_in_first_out_iff_fetchingTwice : byFour.HoldsFew fetchingTwice
    ∧ byFour.InOneRound fetchingTwice
    ∧ byFour.quantaSpent fetchingTwice = quantaAt 4 [1, 2, 3, 4, 5, 6, 7, 8] 0 2 := by
  have hfew : byFour.HoldsFew fetchingTwice := by
    refine ⟨?_, ?_, ?_, ?_, ?_⟩
    all_goals cbv
  have hspent : departures .outgoing byFour fetchingTwice = [1, 2] := by cbv
  obtain ⟨hiff, hrun, -⟩ := first_in_first_out_iff (q := 4) (b := byFour) rfl hfew
  have hone : byFour.InOneRound fetchingTwice := hiff.1 (by rw [hspent]; rfl)
  have hquanta := (hrun hone).1
  rw [hspent] at hquanta
  exact ⟨hfew, hone, hquanta⟩

/-! ## A run in which the ids come round -/

theorem delivered_append (d : Direction) (uses more : List KeyUse) :
    KeyUse.delivered d (uses ++ more) = KeyUse.delivered d uses ++ KeyUse.delivered d more := by
  induction uses with
  | nil => rfl
  | cons u rest ih =>
    rw [List.cons_append, delivered_cons, ih, delivered_cons d u rest, List.append_assoc]

theorem quantaSpent_append (b : KeyBuffer) (uses more : List KeyUse) :
    b.quantaSpent (uses ++ more) = b.quantaSpent uses ++ (b.useAll uses).quantaSpent more := by
  induction uses generalizing b with
  | nil => rfl
  | cons u rest ih =>
    rw [List.cons_append, quantaSpent, ih, quantaSpent, List.append_assoc]
    rfl

theorem HoldsFew.append {more : List KeyUse} (h : b.HoldsFew uses)
    (hmore : (b.useAll uses).HoldsFew more) : b.HoldsFew (uses ++ more) := by
  induction uses generalizing b with
  | nil => exact hmore
  | cons u rest ih => exact ⟨h.1, ih h.2 hmore⟩

/-- A key to send with that can be taken from the lowest id on is handed out. -/
theorem use_fetchOutgoing {first : UInt32} {length : Nat} {key : Key} {s' : KeyStock}
    (hlength : length ≠ 0) (hmin : b.outgoing.held.minKey? = some first)
    (htake : b.outgoing.take b.quantum first length = .ok (key, s')) :
    (b.use (.fetchOutgoing length)).outgoing = s' := by
  simp only [use, KeySource.fetchOutgoing, fetchOutgoing, hlength, if_false, hmin, htake,
    KeySource.outcome_ok]

/-- A key is handed out from the front of the queue if its quanta are held and of one round. -/
theorem queues_fetchOutgoing (h : Queues b.quantum stream n b.outgoing)
    (hsize : b.outgoing.held.size < 2 ^ 32 - 1) (hone : b.outgoing.OneRound) {length : Nat}
    (hcount : quantaFor b.quantum length ≠ 0)
    (hround : n % (2 ^ 32 - 1) + quantaFor b.quantum length ≤ 2 ^ 32 - 1)
    (hroom : n + quantaFor b.quantum length ≤ stream.length / b.quantum) :
    (b.use (.fetchOutgoing length)).outgoing.held.size < 2 ^ 32 - 1
      ∧ (b.idsSpent (.fetchOutgoing length)).length = quantaFor b.quantum length
      ∧ Queues b.quantum stream (n + quantaFor b.quantum length)
        (b.use (.fetchOutgoing length)).outgoing := by
  have hlength := KeyStock.ne_zero_of_quantaFor_ne_zero b.quantum_pos hcount
  have hmin := h.minKey?_of_oneRound hsize hone (by omega)
  obtain ⟨key, s', htake⟩ := h.exists_take hround hroom
  have huse := use_fetchOutgoing hlength hmin htake
  have hnext : (b.use (.fetchOutgoing length)).outgoing.held.size < 2 ^ 32 - 1 := by
    rw [huse]
    exact Nat.lt_of_le_of_lt (KeyStock.size_take_le htake) hsize
  have hspent : (b.idsSpent (.fetchOutgoing length)).length = quantaFor b.quantum length := by
    rw [idsSpent, huse, (KeyStock.idsBeyond_take h.zero_not_mem_held htake).1,
      KeyStock.length_idsFrom]
  obtain ⟨-, -, hqueues⟩ := queues_use h (.fetchOutgoing length) hsize hnext fun _ => hone
  rw [KeyUse.delivered, KeyUse.delivered, List.append_nil, hspent] at hqueues
  exact ⟨hnext, hspent, hqueues⟩

/-- A delivery, and a key that is fetched after it. -/
def pushThenFetch (bytes : Bytes) (length : Nat) : List KeyUse :=
  [.push .outgoing bytes, .fetchOutgoing length]

theorem delivered_pushThenFetch (bytes : Bytes) (length : Nat) :
    KeyUse.delivered .outgoing (pushThenFetch bytes length) = bytes := List.append_nil bytes

/-- The delivery uses up nothing. -/
theorem quantaSpent_pushThenFetch (b : KeyBuffer) (bytes : Bytes) (length : Nat) :
    b.quantaSpent (pushThenFetch bytes length)
      = ((b.pushOutgoing bytes).idsSpent (.fetchOutgoing length)).map fun id =>
        (b.pushOutgoing bytes).outgoing.held.getD id .empty := by
  have hpush : b.idsSpent (.push .outgoing bytes) = [] :=
    KeyStock.idsBeyond_eq_nil fun _ hid => KeyStock.mem_held_push hid _ _
  rw [pushThenFetch, quantaSpent, hpush, List.map_nil, List.nil_append, quantaSpent, quantaSpent,
    List.append_nil, use]

/-- The same bytes are delivered and used up at once, so many times. -/
def portions (bytes : Bytes) : Nat → List KeyUse
  | 0 => []
  | count + 1 => pushThenFetch bytes bytes.length ++ portions bytes count

theorem length_delivered_portions (bytes : Bytes) (count : Nat) :
    (KeyUse.delivered .outgoing (portions bytes count)).length = count * bytes.length := by
  induction count with
  | zero => rw [Nat.zero_mul]; rfl
  | succ count ih =>
    rw [portions, delivered_append, List.length_append, ih, delivered_pushThenFetch, Nat.succ_mul,
      Nat.add_comm]

/-! Quanta of one byte are as many as bytes. -/

section Bytewise

variable (hq : b.quantum = 1) (h : Queues b.quantum stream stream.length b.outgoing) {bytes : Bytes}

theorem quantaFor_one {length : Nat} (hlength : length < 2 ^ 32) : quantaFor 1 length = length := by
  have hpieces : pieceCount 1 length = length := by
    rw [pieceCount, Nat.div_one, Nat.add_sub_cancel]
  rw [KeyStock.quantaFor_eq (by rwa [hpieces]), hpieces]

include hq h

/-- A delivery after everything before was used up. -/
theorem queues_pushOutgoing (hfew : bytes.length < 2 ^ 32 - 1) :
    b.outgoing.held.size < 2 ^ 32 - 1 ∧ (b.pushOutgoing bytes).outgoing.held.size < 2 ^ 32 - 1
      ∧ Queues (b.pushOutgoing bytes).quantum (stream ++ bytes) stream.length
        (b.pushOutgoing bytes).outgoing
      ∧ ((b.pushOutgoing bytes).outgoing.OneRound
        ↔ stream.length + bytes.length ≤ (stream.length / (2 ^ 32 - 1) + 1) * (2 ^ 32 - 1)) := by
  have hN : (stream ++ bytes).length / b.quantum = stream.length + bytes.length := by
    rw [hq, Nat.div_one, List.length_append]
  have hroom := h.size_push_le bytes
  rw [hN] at hroom
  have hsize : (b.outgoing.push b.quantum bytes).held.size < 2 ^ 32 - 1 := by omega
  have hpush := h.push bytes hsize
  refine ⟨?_, hsize, hpush, ?_⟩
  · rw [h.size_held, hq, Nat.div_one, Nat.sub_self]
    decide
  · rw [← hN]
    exact hpush.oneRound_iff hsize

/-- As long as the ids do not come round, a portion that is used up at once leaves nothing behind. -/
theorem queues_portion (hne : bytes ≠ []) (hfew : stream.length + bytes.length < 2 ^ 32 - 1) :
    b.HoldsFew (pushThenFetch bytes bytes.length)
      ∧ (b.quantaSpent (pushThenFetch bytes bytes.length)).length = bytes.length
      ∧ Queues b.quantum (stream ++ bytes) (stream ++ bytes).length
        (b.useAll (pushThenFetch bytes bytes.length)).outgoing := by
  have hpos := List.length_pos_of_ne_nil hne
  have hfew' : bytes.length < 2 ^ 32 - 1 := by omega
  have hquantum : (b.pushOutgoing bytes).quantum = 1 := hq
  obtain ⟨hnow, hsize, hpush, hround⟩ := queues_pushOutgoing hq h hfew'
  have hcount : quantaFor (b.pushOutgoing bytes).quantum bytes.length = bytes.length := by
    rw [hquantum, quantaFor_one (by omega)]
  have hfetch := queues_fetchOutgoing hpush hsize (hround.2 (by omega)) (by rw [hcount]; omega)
  rw [hcount, hquantum, Nat.div_one, ← List.length_append] at hfetch
  obtain ⟨hnext, hspent, hqueues⟩ := hfetch (by omega) (Nat.le_refl _)
  refine ⟨⟨hnow, hsize, hnext⟩, ?_, hq.symm ▸ hqueues⟩
  rw [quantaSpent_pushThenFetch, List.length_map, hspent]

/-- So do many of them. -/
theorem queues_portions (hne : bytes ≠ []) {count : Nat}
    (hfew : stream.length + count * bytes.length < 2 ^ 32 - 1) :
    b.HoldsFew (portions bytes count)
      ∧ (b.quantaSpent (portions bytes count)).length = count * bytes.length
      ∧ Queues b.quantum (stream ++ KeyUse.delivered .outgoing (portions bytes count))
        (stream ++ KeyUse.delivered .outgoing (portions bytes count)).length
        (b.useAll (portions bytes count)).outgoing := by
  induction count generalizing b stream with
  | zero =>
    rw [Nat.zero_mul, portions, KeyUse.delivered, List.append_nil]
    refine ⟨?_, rfl, h⟩
    rw [HoldsFew, h.size_held, hq, Nat.div_one, Nat.sub_self]
    decide
  | succ count ih =>
    rw [Nat.succ_mul] at hfew ⊢
    obtain ⟨hfew₁, hspent₁, h₁⟩ := queues_portion hq h hne (by omega)
    have hquantum := quantum_useAll b (pushThenFetch bytes bytes.length)
    rw [← hquantum] at h₁ hq
    obtain ⟨hfew₂, hspent₂, h₂⟩ := ih hq h₁ (by rw [List.length_append]; omega)
    rw [hquantum] at h₂
    rw [portions, quantaSpent_append, List.length_append, hspent₁, hspent₂, useAll, List.foldl_append,
      delivered_append, delivered_pushThenFetch, ← List.append_assoc]
    exact ⟨hfew₁.append hfew₂, Nat.add_comm _ _, h₂⟩

/-- When the ids come round in a delivery, a key of one byte is the quantum with the id 1. -/
theorem quantaSpent_beyond_round (hbefore : stream.length < 2 ^ 32 - 1)
    (hfew : bytes.length < 2 ^ 32 - 1) (hbeyond : 2 ^ 32 - 1 < stream.length + bytes.length) :
    b.HoldsFew (pushThenFetch bytes 1)
      ∧ b.quantaSpent (pushThenFetch bytes 1) = [⟨quantumAt 1 (stream ++ bytes) (2 ^ 32 - 1)⟩] := by
  obtain ⟨hnow, hsize, hpush, hround⟩ := queues_pushOutgoing hq h hfew
  have hquantum : (b.pushOutgoing bytes).quantum = 1 := hq
  obtain ⟨hmin, -⟩ := hpush.minKey?_of_two_rounds hsize (by rw [hround]; omega)
  have hids : idsFrom 1 (quantaFor (b.pushOutgoing bytes).quantum 1) = [1] := by
    rw [hquantum, quantaFor_one (by decide)]
    rfl
  have hheld : ∀ id ∈ idsFrom 1 (quantaFor (b.pushOutgoing bytes).quantum 1),
      id ∈ (b.pushOutgoing bytes).outgoing.held := by
    rw [hids, List.forall_mem_singleton]
    exact (Std.TreeMap.minKey?_eq_some_iff_mem_and_forall.1 hmin).1
  have htake := KeyStock.take_eq_ok_iff.2 ⟨hheld, rfl⟩
  have huse := use_fetchOutgoing (by decide) hmin htake
  have hnext := Nat.lt_of_le_of_lt (KeyStock.size_take_le htake) hsize
  rw [← huse] at hnext
  have hspent : (b.pushOutgoing bytes).idsSpent (.fetchOutgoing 1) = [1] := by
    rw [idsSpent, huse, (KeyStock.idsBeyond_take hpush.zero_not_mem_held htake).1, hids]
  have hid : idOf (2 ^ 32 - 1) = 1 := by
    rw [← UInt32.toNat_inj, KeyStock.toNat_idOf]
    rfl
  have hkey := (hpush.held_iff 1 ⟨quantumAt 1 (stream ++ bytes) (2 ^ 32 - 1)⟩).2
    ⟨2 ^ 32 - 1, by rw [hquantum, Nat.div_one, List.length_append]; omega, hid, by rw [hquantum]⟩
  refine ⟨⟨hnow, hsize, hnext⟩, ?_⟩
  rw [quantaSpent_pushThenFetch, hspent, List.map_singleton, Std.TreeMap.getD_eq_getD_getElem?, hkey,
    Option.getD_some]

end Bytewise

theorem quantumAt_append_right (stream bytes : Bytes) (i : Nat) :
    quantumAt 1 (stream ++ bytes) (stream.length + i) = (bytes.drop i).take 1 := by
  rw [quantumAt, Nat.mul_one, List.drop_append, Nat.add_sub_cancel_left,
    List.drop_eq_nil_of_le (Nat.le_add_right _ _), List.nil_append]

/-- Portions that are used up at once, then one of which a byte is fetched. -/
def portionsThen (bytes last : Bytes) (count : Nat) : List KeyUse :=
  portions bytes count ++ pushThenFetch last 1

/-- If the ids come round in the last portion, the byte is not its first one. -/
theorem quantaSpent_portionsThen_ne {bytes last : Bytes} {count : Nat} (hne : bytes ≠ [])
    (hbefore : count * bytes.length < 2 ^ 32 - 1) (hfew : last.length < 2 ^ 32 - 1)
    (hbeyond : 2 ^ 32 - 1 < count * bytes.length + last.length)
    (hdiffer : (last.drop (2 ^ 32 - 1 - count * bytes.length)).take 1 ≠ last.take 1) :
    byOne.HoldsFew (portionsThen bytes last count)
      ∧ byOne.quantaSpent (portionsThen bytes last count)
        ≠ quantaAt 1 (KeyUse.delivered .outgoing (portionsThen bytes last count)) 0
          (byOne.quantaSpent (portionsThen bytes last count)).length := by
  have hstart : Queues byOne.quantum [] ([] : Bytes).length byOne.outgoing :=
    KeyStock.queues_empty 1
  obtain ⟨hportions, hspent, hqueues⟩ :=
    queues_portions rfl hstart hne (by rwa [List.length_nil, Nat.zero_add])
  have hlength := length_delivered_portions bytes count
  rw [List.nil_append, ← quantum_useAll byOne (portions bytes count)] at hqueues
  rw [← hlength] at hbefore hbeyond hdiffer hspent
  obtain ⟨hlate, hkey⟩ :=
    quantaSpent_beyond_round (quantum_useAll byOne (portions bytes count)) hqueues hbefore hfew hbeyond
  refine ⟨hportions.append hlate, ?_⟩
  rw [portionsThen, quantaSpent_append, hkey, delivered_append, delivered_pushThenFetch,
    List.length_append, hspent, List.length_singleton, KeyStock.quantaAt_add, Nat.zero_add]
  generalize KeyUse.delivered .outgoing (portions bytes count) = stream at hbefore hdiffer ⊢
  intro hfirst
  have hlast := List.append_inj_right' hfirst (by simp)
  have hsame : quantumAt 1 (stream ++ last) (2 ^ 32 - 1)
      = quantumAt 1 (stream ++ last) (stream.length + 0) := congrArg Key.bytes (List.cons.inj hlast).1
  rw [← Nat.add_sub_cancel' (Nat.le_of_lt hbefore), quantumAt_append_right, quantumAt_append_right,
    List.drop_zero] at hsame
  exact hdiffer hsame

/-- 2 ^ 32 bytes in portions of four mebibytes, all of them 0 but the last one. -/
def comingRound : List KeyUse :=
  portionsThen (List.replicate (2 ^ 22) 0) (List.replicate (2 ^ 22 - 1) 0 ++ [1]) 1023

theorem one_after_zeros {count : Nat} (hpos : 0 < count) :
    ((List.replicate count (0 : UInt8) ++ [1]).drop count).take 1
      ≠ (List.replicate count (0 : UInt8) ++ [1]).take 1 := by
  obtain ⟨rest, rfl⟩ := Nat.exists_eq_add_one.2 hpos
  rw [List.drop_left' List.length_replicate, List.replicate_succ, List.cons_append]
  simp

/-- The last byte of the stream is used up before those of its portion in front of it. -/
theorem not_first_in_first_out : ofQuantum 1 = .ok byOne ∧ byOne.HoldsFew comingRound
    ∧ byOne.quantaSpent comingRound ≠ quantaAt 1 (KeyUse.delivered .outgoing comingRound) 0
      (byOne.quantaSpent comingRound).length := by
  have hzeros : (List.replicate (2 ^ 22) (0 : UInt8)).length = 2 ^ 22 := List.length_replicate
  have hlast : (List.replicate (2 ^ 22 - 1) (0 : UInt8) ++ [1]).length = 2 ^ 22 := by
    rw [List.length_append, List.length_replicate]
    rfl
  refine ⟨rfl, quantaSpent_portionsThen_ne (List.ne_nil_of_length_pos ?_) ?_ ?_ ?_ ?_⟩
  · rw [hzeros]
    decide
  · rw [hzeros]
    decide
  · rw [hlast]
    decide
  · rw [hzeros, hlast]
    decide
  · rw [hzeros, show 2 ^ 32 - 1 - 1023 * 2 ^ 22 = 2 ^ 22 - 1 by decide]
    exact one_after_zeros (by decide)

end KeyBuffer

end OneTimeChannel

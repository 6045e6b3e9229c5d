/-
  Data may be added in pieces.

  Every algorithm takes in data by blocks: a hash by field elements, a pad by single bytes, and `null` not at
  all.  Cutting data at the border of a block cuts its blocks into two lists (`pieces_append`), so adding the
  two parts is adding the whole (`absorbed_append`), and so is adding any number of parts, as long as all but
  the last are made of full blocks (`addEach_eq_add_flatten`).  The contexts are equal, and with them all that
  can be asked of them and all that they do later.

  The last part need not be made of full blocks, since it is filled up in the same way as the whole.
-/
import OneTimeChannel.Proofs.Cipher.HashPolynomial

namespace OneTimeChannel

/-- Cutting at the border of a block cuts the pieces into two lists. -/
theorem pieces_append {size : Nat} (hsize : size ≠ 0) {a : Bytes} (ha : size ∣ a.length) (b : Bytes) :
    pieces size (a ++ b) = pieces size a ++ pieces size b := by
  fun_induction pieces size a with
  | case1 a hend =>
    obtain rfl : a = [] := hend.resolve_right hsize
    rfl
  | case2 a hmore ih =>
    have hne : a ≠ [] := fun hnil => hmore (Or.inl hnil)
    have hle : size ≤ a.length := Nat.le_of_dvd (List.length_pos_of_ne_nil hne) ha
    have hrest : size ∣ (a.drop size).length := by
      rw [List.length_drop]
      exact Nat.dvd_sub ha (Nat.dvd_refl size)
    have hwhole : a ++ b ≠ [] := List.append_ne_nil_of_left_ne_nil hne b
    rw [pieces_of_ne_nil hsize hwhole, List.take_append_of_le_length hle, List.drop_append_of_le_length hle,
      ih hrest, List.cons_append]

namespace EvaluationHash

variable (h : EvaluationHash) {a : Bytes}

theorem digest_append (ha : h.bytes ∣ a.length) (tag : Gf2.Element h.width.words) (b : Bytes) :
    h.digest tag (a ++ b) = h.digest (h.digest tag a) b := by
  rw [digest, pieces_append h.bytes_pos.ne' ha, List.foldl_append]
  rfl

theorem blockCount_append (ha : h.bytes ∣ a.length) (b : Bytes) :
    h.blockCount (a ++ b) = h.blockCount a + h.blockCount b := by
  have hsize := h.bytes_pos.ne'
  rw [blockCount, blockCount, blockCount, ← length_pieces hsize, ← length_pieces hsize,
    ← length_pieces hsize, pieces_append hsize ha, List.length_append]

end EvaluationHash

namespace Algorithm

/-- How many bytes make a block. -/
def blockSize : Algorithm → Nat
  | null => 1
  | pad _ => 1
  | evaluationHash h => h.bytes

variable {a : Algorithm}

@[simp] theorem blockSize_absorbed (a : Algorithm) (data : Bytes) :
    (a.absorbed data).blockSize = a.blockSize := by
  cases a <;> rfl

theorem absorbed_append {data : Bytes} (hdata : a.blockSize ∣ data.length) (data' : Bytes) :
    a.absorbed (data ++ data') = (a.absorbed data).absorbed data' := by
  cases a with
  | null => rfl
  | pad held => simp only [absorbed, List.append_assoc]
  | evaluationHash h =>
    rw [absorbed, h.digest_append hdata]
    rfl

theorem blockCount_append {data : Bytes} (hdata : a.blockSize ∣ data.length) (data' : Bytes) :
    a.blockCount (data ++ data') = a.blockCount data + (a.absorbed data).blockCount data' := by
  cases a with
  | null => rfl
  | pad held => exact List.length_append
  | evaluationHash h => exact h.blockCount_append hdata data'

theorem absorbed_nil (a : Algorithm) : a.absorbed [] = a := by
  cases a with
  | null => rfl
  | pad held => rw [absorbed, List.append_nil]
  | evaluationHash h => rw [absorbed, h.digest_nil]

theorem blockCount_nil (a : Algorithm) : a.blockCount [] = 0 := by
  cases a with
  | null => rfl
  | pad held => rfl
  | evaluationHash h =>
    show h.blockCount [] = 0
    rw [EvaluationHash.blockCount, ← length_pieces h.bytes_pos.ne' [], pieces_nil, List.length_nil]

end Algorithm

namespace Context

variable {c : Context}

theorem absorbed_nil (c : Context) : c.absorbed [] = c := by
  rw [absorbed, c.algorithm.absorbed_nil, c.algorithm.blockCount_nil]
  simp

/-- The two parts of data that is cut at the border of a block. -/
theorem absorbed_append {data : Bytes} (hdata : c.algorithm.blockSize ∣ data.length) (data' : Bytes) :
    c.absorbed (data ++ data') = (c.absorbed data).absorbed data' := by
  simp only [absorbed, Algorithm.absorbed_append hdata, Algorithm.blockCount_append hdata,
    UInt64.ofNat_add, UInt64.add_assoc]

/-- Adds one part after the other. -/
def addEach (c : Context) (parts : List Bytes) : Except Error Context := parts.foldlM add c

theorem addEach_cons (h : c.finalized = false) (part : Bytes) (parts : List Bytes) :
    c.addEach (part :: parts) = (c.absorbed part).addEach parts := by
  rw [addEach, List.foldlM_cons, add_eq h]
  rfl

theorem addEach_eq (h : c.finalized = false) {parts : List Bytes}
    (haligned : ∀ part ∈ parts.dropLast, c.algorithm.blockSize ∣ part.length) :
    c.addEach parts = .ok (c.absorbed parts.flatten) := by
  induction parts generalizing c with
  | nil =>
    rw [List.flatten_nil, absorbed_nil]
    rfl
  | cons part parts ih =>
    have hfin : (c.absorbed part).finalized = false := h
    cases parts with
    | nil =>
      -- the last part is filled up
      rw [addEach_cons h, List.flatten_cons, List.flatten_nil, List.append_nil]
      rfl
    | cons next parts =>
      rw [List.dropLast_cons_cons] at haligned
      have hpart := haligned part List.mem_cons_self
      have hrest : ∀ q ∈ (next :: parts).dropLast, (c.absorbed part).algorithm.blockSize ∣ q.length := by
        intro q hq
        show (c.algorithm.absorbed part).blockSize ∣ q.length
        rw [Algorithm.blockSize_absorbed]
        exact haligned q (List.mem_cons_of_mem _ hq)
      rw [addEach_cons h, ih hfin hrest, ← absorbed_append hpart, ← List.flatten_cons]

/-- A context of any algorithm and in any state that is not finalized takes in data in parts as it takes in
    the whole, as long as all parts but the last are made of full blocks. -/
theorem addEach_eq_add_flatten (h : c.finalized = false) {parts : List Bytes}
    (haligned : ∀ part ∈ parts.dropLast, c.algorithm.blockSize ∣ part.length) :
    ∃ c', c.addEach parts = .ok c' ∧ c.add parts.flatten = .ok c' :=
  ⟨c.absorbed parts.flatten, addEach_eq h haligned, add_eq h _⟩

/-- A new context that hashes with 32 bits at `alpha = x`. -/
def hashingAtX : Context where
  algorithm := .evaluationHash
    { width := .bits32
      alpha := .ofElement Gf2.Width.bits32.field 2 .single
      tag := 0
      field_eq := rfl
      alpha_ne_zero := by decide }

/-- A full block, no data at all, and a byte. -/
theorem addEach_eq_add_flatten_hashingAtX :
    hashingAtX.finalized = false
      ∧ (∀ part ∈ ([[1, 2, 3, 4], []] : List Bytes), hashingAtX.algorithm.blockSize ∣ part.length)
      ∧ ∃ c', hashingAtX.addEach [[1, 2, 3, 4], [], [5]] = .ok c'
        ∧ hashingAtX.add [1, 2, 3, 4, 5] = .ok c' := by
  have haligned : ∀ part ∈ ([[1, 2, 3, 4], []] : List Bytes),
      hashingAtX.algorithm.blockSize ∣ part.length := by decide
  exact ⟨rfl, haligned, addEach_eq_add_flatten rfl haligned⟩

end Context

end OneTimeChannel

/-
  What cutting a text gives.

  Joined by the separator, the fields of a text are the text again (`intercalate_split`), and cutting at
  the first separator gives the text before it and the text behind it (`splitOnce?_eq_some_iff`).  So what
  a reader finds in the fields it has found in the text.

  Trimming takes blanks from both ends and nothing else: blanks around a text change nothing
  (`Surrounds.trimmed_eq`), all that is taken away is blank (`surrounds_trimmed`), and from either side it stops
  at the first character that is not (`trimmed_append_cons`).
-/
import OneTimeChannel.Text.Blank
import OneTimeChannel.Text.Fields
import Mathlib.Data.List.TakeWhile

namespace OneTimeChannel.Text

variable {sep c : Char} {cs head before after : List Char}

/-! ## Fields -/

theorem split_eq_splitOn (sep : Char) (cs : List Char) : split sep cs = cs.splitOn sep := by
  induction cs with
  | nil => rw [split, List.splitOn_nil]
  | cons c cs ih =>
    rw [split, List.splitOn_cons_eq_if_modifyHead, ih]
    by_cases hc : c = sep
    · rw [if_pos hc, if_pos (beq_iff_eq.2 hc)]
    · rw [if_neg hc, if_neg fun h => hc (beq_iff_eq.1 h)]
      cases hfields : cs.splitOn sep with
      | nil => exact absurd hfields (List.splitOn_ne_nil sep cs)
      | cons field fields => rfl

/-- The fields with the separator between them are the text. -/
theorem intercalate_split (sep : Char) (cs : List Char) : [sep].intercalate (split sep cs) = cs := by
  rw [split_eq_splitOn, List.intercalate_splitOn]

theorem splitOnce?_eq_some_iff :
    splitOnce? sep cs = some (before, after) ↔ sep ∉ before ∧ cs = before ++ sep :: after := by
  constructor
  · intro h
    by_cases hmem : sep ∈ cs
    · obtain ⟨head, rest, rfl, hhead⟩ := List.eq_append_cons_of_mem hmem
      rw [splitOnce?_append hhead] at h
      cases h
      exact ⟨hhead, rfl⟩
    · rw [splitOnce?_of_not_mem hmem] at h
      cases h
  · rintro ⟨hbefore, rfl⟩
    exact splitOnce?_append hbefore after

/-! ## The head of a text -/

theorem beforeFirst_of_not_mem (h : sep ∉ cs) : beforeFirst sep cs = cs :=
  List.takeWhile_eq_self_iff.2 fun _ hc => decide_eq_true fun e => h (e ▸ hc)

theorem beforeFirst_append (h : sep ∉ head) (rest : List Char) :
    beforeFirst sep (head ++ sep :: rest) = head := by
  have hhead : ∀ c ∈ head, decide (c ≠ sep) = true := fun _ hc => decide_eq_true fun e => h (e ▸ hc)
  rw [beforeFirst, List.takeWhile_append_of_pos hhead, List.takeWhile_cons_of_neg (by simp),
    List.append_nil]

/-- The head of a text, which a separator may end, and anything may follow. -/
def IsHead (sep : Char) (head cs : List Char) : Prop :=
  sep ∉ head ∧ (cs = head ∨ ∃ rest, cs = head ++ sep :: rest)

theorem IsHead.beforeFirst_eq (h : IsHead sep head cs) : beforeFirst sep cs = head := by
  obtain ⟨hhead, rfl | ⟨rest, rfl⟩⟩ := h
  · exact beforeFirst_of_not_mem hhead
  · exact beforeFirst_append hhead rest

/-! ## Blanks -/

theorem dropWhile_append_cons {p : Char → Bool} (hc : p c = false) (before after : List Char) :
    (before ++ c :: after).dropWhile p = before.dropWhile p ++ c :: after := by
  rw [List.dropWhile_append]
  split
  · next hnil =>
    rw [List.isEmpty_iff.1 hnil, List.dropWhile_cons_of_neg (by rw [hc]; exact Bool.false_ne_true),
      List.nil_append]
  · rfl

/-- Trimming stops at a character that is no blank. -/
theorem trimmed_append_cons (hc : isBlank c = false) (before after : List Char) :
    trimmed (before ++ c :: after)
      = before.dropWhile isBlank ++ c :: (after.reverse.dropWhile isBlank).reverse := by
  have hreverse : (before.dropWhile isBlank ++ c :: after).reverse
      = after.reverse ++ c :: (before.dropWhile isBlank).reverse := by simp
  rw [trimmed, dropWhile_append_cons hc, hreverse, dropWhile_append_cons hc]
  simp

/-- The text with blanks around it. -/
def Surrounds (text cs : List Char) : Prop :=
  ∃ before after, text = before ++ cs ++ after
    ∧ (∀ c ∈ before, isBlank c = true) ∧ ∀ c ∈ after, isBlank c = true

theorem surrounds_trimmed (text : List Char) : Surrounds text (trimmed text) := by
  refine ⟨text.takeWhile isBlank, ((text.dropWhile isBlank).reverse.takeWhile isBlank).reverse, ?_,
    fun c hc => List.mem_takeWhile_imp hc,
    fun c hc => List.mem_takeWhile_imp (List.mem_reverse.1 hc)⟩
  rw [trimmed, List.append_assoc, ← List.reverse_append, List.takeWhile_append_dropWhile,
    List.reverse_reverse, List.takeWhile_append_dropWhile]

/-- What holds no blank is what is left of a text with blanks around it. -/
theorem Surrounds.trimmed_eq {text : List Char} (h : Surrounds text cs)
    (hcs : ∀ c ∈ cs, isBlank c = false) : trimmed text = cs := by
  obtain ⟨before, after, rfl, hbefore, hafter⟩ := h
  have hend : (after.reverse ++ cs.reverse).dropWhile isBlank = cs.reverse.dropWhile isBlank :=
    List.dropWhile_append_of_pos fun c hc => hafter c (List.mem_reverse.1 hc)
  cases cs with
  | nil =>
    have hall : ∀ c ∈ before ++ [] ++ after, isBlank c = true := by
      intro c hc
      rw [List.append_nil, List.mem_append] at hc
      exact hc.elim (hbefore c) (hafter c)
    rw [trimmed, List.dropWhile_eq_nil_iff.2 hall]
    rfl
  | cons c cs =>
    have hstart : (before ++ (c :: cs) ++ after).dropWhile isBlank = c :: cs ++ after := by
      rw [List.append_assoc, List.dropWhile_append_of_pos hbefore, List.cons_append,
        List.dropWhile_cons_of_neg (by simp [hcs c List.mem_cons_self])]
    have hkept := trimmed_of_forall hcs
    rw [trimmed, List.dropWhile_cons_of_neg (by simp [hcs c List.mem_cons_self])] at hkept
    rw [trimmed, hstart, List.reverse_append, hend, hkept]

end OneTimeChannel.Text

/-
  Texts made of fields with a separator between them.

  `split` cuts at every separator, so a text has one field more than separators, and the fields
  may be empty.  `splitOnce` cuts at the first separator only.

  Core only.
-/

namespace OneTimeChannel.Text

/-- The fields of a text. -/
def split (sep : Char) : List Char → List (List Char)
  | [] => [[]]
  | c :: cs =>
    if c = sep then [] :: split sep cs
    else match split sep cs with
      | field :: fields => (c :: field) :: fields
      | [] => [[c]]

/-- The text before the first separator. -/
def beforeFirst (sep : Char) (cs : List Char) : List Char := cs.takeWhile (· ≠ sep)

/-- The texts before and after the first separator, if there is one. -/
def splitOnce? (sep : Char) (cs : List Char) : Option (List Char × List Char) :=
  match cs.dropWhile (· ≠ sep) with
  | _ :: rest => some (beforeFirst sep cs, rest)
  | [] => none

theorem split_ne_nil (sep : Char) (cs : List Char) : split sep cs ≠ [] := by
  induction cs with
  | nil => simp [split]
  | cons c cs ih =>
    unfold split
    split
    · simp
    · split <;> simp

/-- Without a separator there is one field, the text itself. -/
theorem split_of_not_mem {sep : Char} {cs : List Char} (h : sep ∉ cs) : split sep cs = [cs] := by
  induction cs with
  | nil => rfl
  | cons c cs ih =>
    have hc : c ≠ sep := fun e => h (e ▸ List.mem_cons_self)
    have hcs : sep ∉ cs := fun m => h (List.mem_cons_of_mem _ m)
    simp [split, hc, ih hcs]

/-- The first field ends at the first separator. -/
theorem split_append {sep : Char} {field : List Char} (h : sep ∉ field) (rest : List Char) :
    split sep (field ++ sep :: rest) = field :: split sep rest := by
  induction field with
  | nil => simp [split]
  | cons c cs ih =>
    have hc : c ≠ sep := fun e => h (e ▸ List.mem_cons_self)
    have hcs : sep ∉ cs := fun m => h (List.mem_cons_of_mem _ m)
    simp [split, hc, ih hcs]

/-- The cut is at the first separator. -/
theorem splitOnce?_append {sep : Char} {field : List Char} (h : sep ∉ field) (rest : List Char) :
    splitOnce? sep (field ++ sep :: rest) = some (field, rest) := by
  have hfield : ∀ c ∈ field, decide (c ≠ sep) = true := by
    intro c hc
    exact decide_eq_true fun e => h (e ▸ hc)
  have hsep : decide (sep ≠ sep) = false := decide_eq_false fun e => e rfl
  rw [splitOnce?, beforeFirst, List.dropWhile_append_of_pos hfield,
    List.takeWhile_append_of_pos hfield, List.dropWhile_cons, List.takeWhile_cons, hsep]
  simp

/-- Without a separator there is no cut. -/
theorem splitOnce?_of_not_mem {sep : Char} {cs : List Char} (h : sep ∉ cs) :
    splitOnce? sep cs = none := by
  have hcs : ∀ c ∈ cs, decide (c ≠ sep) = true := by
    intro c hc
    exact decide_eq_true fun e => h (e ▸ hc)
  have hnone : (cs ++ []).dropWhile (· ≠ sep) = [] := List.dropWhile_append_of_pos hcs
  rw [List.append_nil] at hnone
  rw [splitOnce?, hnone]

end OneTimeChannel.Text

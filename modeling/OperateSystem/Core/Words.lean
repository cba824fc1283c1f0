import Mathlib.Data.List.Basic

/-!
# The words of a line

The words of a list are its maximal runs of elements other than a separator: what is
left of the pieces between the separators when the empty ones are dropped.
-/

namespace OperateSystem.Words

variable {α : Type*} [DecidableEq α]

/-- The maximal runs of elements other than `sep`. -/
def words (sep : α) (line : List α) : List (List α) :=
  (line.splitOn sep).filter fun word => !word.isEmpty

variable {sep : α} {word : List α}

theorem words_nil : words sep [] = [] := rfl

/-- Separators at the front do not matter. -/
theorem words_sep (line : List α) : words sep (sep :: line) = words sep line := by
  rw [words, words, List.splitOn_cons_eq_if_modifyHead, if_pos (beq_self_eq_true sep)]
  rfl

/-- A word ends where its separator is. -/
theorem words_cons (hne : word ≠ []) (hword : sep ∉ word) (line : List α) :
    words sep (word ++ sep :: line) = word :: words sep line := by
  rw [words, words, List.splitOn_append_cons_self_of_not_mem hword, List.filter_cons_of_pos]
  rw [List.isEmpty_eq_false_iff.mpr hne]
  rfl

/-- The last word ends with the line. -/
theorem words_last (hne : word ≠ []) (hword : sep ∉ word) : words sep word = [word] := by
  rw [words, List.splitOn_eq_singleton hword, List.filter_cons_of_pos]
  · rfl
  · rw [List.isEmpty_eq_false_iff.mpr hne]
    rfl

end OperateSystem.Words

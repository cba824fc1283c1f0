import Mathlib.Data.List.TakeWhile
import Mathlib.Tactic.Common

/-!
# Strings that end at a terminator

A string is stored as its characters and a terminator behind them, or in a field of
fixed width that has no terminator when it is full.  A comparison that reads up to a
terminator sees the text of a field as long as there is one in the field; in a full
field it runs on into whatever is stored behind it.
-/

namespace OperateSystem.Terminated

variable {α : Type*} [DecidableEq α]

/-- The text of a buffer: what is in it before the first terminator. -/
def text (nul : α) (buf : List α) : List α := buf.takeWhile (· ≠ nul)

/-- The memory spells the string: its characters, and then a terminator. -/
def spells (nul : α) (mem : ℕ → α) : List α → Bool
  | [] => mem 0 = nul
  | c :: s => mem 0 = c && spells nul (fun i => mem (i + 1)) s

omit [DecidableEq α] in
/-- A memory that starts with a field. -/
def followedBy (field : List α) (behind : ℕ → α) : ℕ → α :=
  fun i => field[i]?.getD (behind (i - field.length))

variable {nul : α} {s : List α}

section Text

@[simp]
theorem text_nil : text nul [] = [] := rfl

theorem text_cons (c : α) (buf : List α) :
    text nul (c :: buf) = if c = nul then [] else c :: text nul buf := by
  by_cases hc : c = nul <;> simp [text, hc]

theorem notMem_text (buf : List α) : nul ∉ text nul buf := by
  intro hmem
  have hne := List.mem_takeWhile_imp hmem
  simp at hne

/-- Characters other than the terminator belong to the text. -/
theorem text_append (hs : nul ∉ s) (rest : List α) : text nul (s ++ rest) = s ++ text nul rest := by
  induction s with
  | nil => rfl
  | cons c s ih =>
      obtain ⟨hc, hs⟩ := List.ne_and_not_mem_of_not_mem_cons hs
      rw [List.cons_append, text_cons, if_neg (fun heq => hc heq.symm), ih hs, List.cons_append]

/-- What is stored behind a terminator does not matter. -/
theorem text_terminated (buf rest : List α) : text nul (buf ++ nul :: rest) = text nul buf := by
  induction buf with
  | nil => rw [List.nil_append, text_cons, if_pos rfl, text_nil]
  | cons c buf ih => rw [List.cons_append, text_cons, text_cons, ih]

theorem text_eq_self (hs : nul ∉ s) : text nul s = s := by
  have happend := text_append hs []
  rwa [List.append_nil, text_nil, List.append_nil] at happend

theorem length_text_le (buf : List α) : (text nul buf).length ≤ buf.length :=
  (List.takeWhile_sublist _).length_le

/-- The text of a full field is the whole field. -/
theorem text_eq_of_length {buf : List α} (h : (text nul buf).length = buf.length) :
    text nul buf = buf :=
  (List.takeWhile_sublist _).eq_of_length h

end Text

section Comparison

variable {behind : ℕ → α}

omit [DecidableEq α] in
theorem followedBy_nil : followedBy [] behind = behind := by
  funext i
  simp [followedBy]

omit [DecidableEq α] in
theorem followedBy_cons_succ (c : α) (field : List α) (i : ℕ) :
    followedBy (c :: field) behind (i + 1) = followedBy field behind i := by
  simp [followedBy]

/-- A field compares equal to a string when its text is the string and the terminator is
in the field, or when the field is full, starts the string, and the rest of the string is
spelled behind it. -/
theorem spells_followedBy (field : List α) (hs : nul ∉ s) :
    spells nul (followedBy field behind) s ↔
      (s.length < field.length ∧ text nul field = s) ∨
        (nul ∉ field ∧ field <+: s ∧ spells nul behind (s.drop field.length)) := by
  induction field generalizing s with
  | nil => simp [followedBy_nil]
  | cons c field ih =>
      have hfirst : followedBy (c :: field) behind 0 = c := rfl
      cases s with
      | nil =>
          simp only [spells, hfirst, decide_eq_true_eq, text_cons]
          by_cases hc : c = nul <;> simp [hc]
      | cons d s =>
          obtain ⟨hd, hs⟩ := List.ne_and_not_mem_of_not_mem_cons hs
          simp only [spells, hfirst, followedBy_cons_succ, Bool.and_eq_true, decide_eq_true_eq,
            ih hs, text_cons]
          by_cases hc : c = d
          · subst hc
            simp [Ne.symm hd, hd]
          · by_cases hnul : c = nul <;> simp [hc, hnul, hd]

/-- Strings that are shorter than the field are compared within it. -/
theorem spells_followedBy_of_lt {field : List α} (hs : nul ∉ s) (hlt : s.length < field.length) :
    spells nul (followedBy field behind) s ↔ text nul field = s := by
  rw [spells_followedBy field hs]
  constructor
  · rintro (⟨-, htext⟩ | ⟨-, hprefix, -⟩)
    · exact htext
    · exact absurd hprefix.length_le (Nat.not_le.mpr hlt)
  · exact fun htext => Or.inl ⟨hlt, htext⟩

end Comparison

end OperateSystem.Terminated

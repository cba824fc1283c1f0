import Mathlib.Data.List.Nodup

/-!
# Null-terminated linked lists in memory

A free list is threaded through the cells it contains: the first word of a
cell is the address of the next one and `0` ends the list.  `Linked next head
cells` says that following `next` from `head` visits exactly `cells`.
-/

namespace OperateSystem.LinkedList

/-- Following `next` from `head` visits `cells` in order and then stops at the
null address. -/
def Linked (next : ℕ → ℕ) : ℕ → List ℕ → Prop
  | head, [] => head = 0
  | head, cell :: cells => head = cell ∧ cell ≠ 0 ∧ Linked next (next cell) cells

variable {next : ℕ → ℕ}

@[simp]
theorem linked_nil {head : ℕ} : Linked next head [] ↔ head = 0 := Iff.rfl

@[simp]
theorem linked_cons {head cell : ℕ} {cells : List ℕ} :
    Linked next head (cell :: cells) ↔
      head = cell ∧ cell ≠ 0 ∧ Linked next (next cell) cells := Iff.rfl

/-- The cells of a linked list are determined by its head. -/
theorem Linked.unique {head : ℕ} {left right : List ℕ}
    (hleft : Linked next head left) (hright : Linked next head right) :
    left = right := by
  induction left generalizing head right with
  | nil =>
      cases right with
      | nil => rfl
      | cons cell cells => exact absurd (hright.1.symm.trans hleft) hright.2.1
  | cons cell cells ih =>
      cases right with
      | nil => exact absurd (hleft.1.symm.trans hright) hleft.2.1
      | cons cell' cells' =>
          obtain ⟨rfl, -, htail⟩ := hleft
          obtain ⟨rfl, -, htail'⟩ := hright
          rw [ih htail htail']

/-- The list that starts at the link of a visited cell is strictly shorter. -/
theorem Linked.suffix {head cell : ℕ} {cells : List ℕ}
    (h : Linked next head cells) (hmem : cell ∈ cells) :
    ∃ rest, Linked next (next cell) rest ∧ rest.length < cells.length := by
  induction cells generalizing head with
  | nil => simp at hmem
  | cons first rest ih =>
      obtain ⟨-, -, hrest⟩ := h
      rcases List.mem_cons.mp hmem with rfl | hmem
      · exact ⟨rest, hrest, by simp⟩
      · obtain ⟨tail, htail, hlength⟩ := ih hrest hmem
        exact ⟨tail, htail, by simp only [List.length_cons]; omega⟩

/-- A list that ends cannot visit a cell twice. -/
theorem Linked.nodup {head : ℕ} {cells : List ℕ} (h : Linked next head cells) :
    cells.Nodup := by
  induction cells generalizing head with
  | nil => exact List.nodup_nil
  | cons cell rest ih =>
      obtain ⟨-, -, hrest⟩ := h
      refine List.nodup_cons.mpr ⟨fun hmem => ?_, ih hrest⟩
      obtain ⟨tail, htail, hlength⟩ := hrest.suffix hmem
      rw [htail.unique hrest] at hlength
      exact absurd hlength (Nat.lt_irrefl _)

/-- Writes outside the list leave it as it is. -/
theorem Linked.frame {next' : ℕ → ℕ} {head : ℕ} {cells : List ℕ}
    (h : Linked next head cells) (hsame : ∀ cell ∈ cells, next' cell = next cell) :
    Linked next' head cells := by
  induction cells generalizing head with
  | nil => exact h
  | cons cell cells ih =>
      obtain ⟨hhead, hnull, htail⟩ := h
      refine ⟨hhead, hnull, ?_⟩
      rw [hsame cell (by simp)]
      exact ih htail fun other hother => hsame other (by simp [hother])

/-- Writing a cell that is not on the list leaves the list as it is. -/
theorem Linked.update {head cell value : ℕ} {cells : List ℕ}
    (h : Linked next head cells) (hfresh : cell ∉ cells) :
    Linked (Function.update next cell value) head cells := by
  refine h.frame fun other hother => ?_
  rw [Function.update_of_ne]
  rintro rfl
  exact hfresh hother

/-- Pushing a fresh cell: its link is set to the old head. -/
theorem Linked.push {head cell : ℕ} {cells : List ℕ}
    (h : Linked next head cells) (hnull : cell ≠ 0) (hfresh : cell ∉ cells) :
    Linked (Function.update next cell head) cell (cell :: cells) :=
  ⟨rfl, hnull, by simpa using h.update hfresh⟩

/-- A list with a non-null head is that head followed by the list at its
link. -/
theorem Linked.pop {head : ℕ} {cells : List ℕ} (h : Linked next head cells)
    (hnull : head ≠ 0) :
    ∃ rest, cells = head :: rest ∧ Linked next (next head) rest := by
  cases cells with
  | nil => exact absurd h hnull
  | cons cell rest =>
      obtain ⟨rfl, -, htail⟩ := h
      exact ⟨rest, rfl, htail⟩

end OperateSystem.LinkedList

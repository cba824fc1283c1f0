import Mathlib.Data.List.Nodup
import OperateSystem.Core.Trace

/-!
# Scanning a list by position

A scan asks for the entry at one position after the other while new entries are put in
front.  Every new entry moves those that are there one position up, so the next call
comes to an entry that was reported before.
-/

namespace OperateSystem.Scanning

open OperateSystem.Traces

/-- The list, the next position, what was reported so far and whether a call has found
nothing. -/
structure Scan (α : Type*) where
  entries : List α
  offset : ℕ
  reported : List α
  ended : Bool

inductive Event (α : Type*)
  | call
  | grow (entry : α)

variable {α : Type*}

/-- A call reports the entry at the next position, unless there is none or the position
is `limit` or above. -/
def Scan.call (limit : ℕ) (scan : Scan α) : Scan α :=
  match if scan.offset < limit then scan.entries[scan.offset]? else none with
  | some entry => { scan with offset := scan.offset + 1, reported := scan.reported ++ [entry] }
  | none => { scan with ended := true }

/-- What can happen until the scan has ended. -/
def Step (limit : ℕ) (scan : Scan α) (event : Event α) (after : Scan α) : Prop :=
  scan.ended = false ∧
    match event with
    | .call => after = scan.call limit
    | .grow entry => entry ∉ scan.entries ∧ after = { scan with entries := entry :: scan.entries }

/-- Only calls, no new entries. -/
def Quiet {State : Type*} (events : List (State × Event α × State)) : Prop :=
  ∀ e ∈ events, e.2.1 = .call

section Calls

theorem Scan.call_cases (scan : Scan α) (limit : ℕ) :
    (∃ entry, scan.offset < limit ∧ scan.entries[scan.offset]? = some entry ∧
      scan.call limit
        = { scan with offset := scan.offset + 1, reported := scan.reported ++ [entry] }) ∨
    ((limit ≤ scan.offset ∨ scan.entries.length ≤ scan.offset) ∧
      scan.call limit = { scan with ended := true }) := by
  rw [Scan.call]
  by_cases hlt : scan.offset < limit
  · rw [if_pos hlt]
    cases hget : scan.entries[scan.offset]? with
    | some entry => exact Or.inl ⟨entry, hlt, rfl, rfl⟩
    | none => exact Or.inr ⟨Or.inr (List.getElem?_eq_none_iff.mp hget), rfl⟩
  · rw [if_neg hlt]
    exact Or.inr ⟨Or.inl (Nat.le_of_not_lt hlt), rfl⟩

end Calls

/-- How far a scan of `old` has come after its first call: `added` are the entries put in
front since then.  Once there is one, some old entry has been reported twice or will
be. -/
structure Progress [DecidableEq α] (limit : ℕ) (old added : List α) (scan : Scan α) : Prop where
  entries : scan.entries = added ++ old
  offset_pos : 0 < scan.offset
  offset_le : scan.offset ≤ scan.entries.length
  passed : ∀ j a, old[j]? = some a → added.length + j < scan.offset → a ∈ scan.reported
  quiet : added = [] → scan.reported = old.take scan.offset
  again : added ≠ [] → (∃ a ∈ old, 2 ≤ scan.reported.count a) ∨
    ∃ j a, old[j]? = some a ∧ a ∈ scan.reported ∧ scan.offset ≤ added.length + j
  ended : scan.ended = true → limit ≤ scan.offset ∨ scan.entries.length ≤ scan.offset

section Runs

variable [DecidableEq α] {limit : ℕ} {old added : List α} {scan : Scan α}

/-- The entry a call reports: an old one, or one of those put in front. -/
theorem Progress.entry (h : Progress limit old added scan) {entry : α}
    (hget : scan.entries[scan.offset]? = some entry) {j : ℕ}
    (hoffset : scan.offset = added.length + j) : old[j]? = some entry := by
  rw [h.entries, hoffset, List.getElem?_append_right (Nat.le_add_right _ _),
    Nat.add_sub_cancel_left] at hget
  exact hget

theorem Progress.call (h : Progress limit old added scan) :
    Progress limit old added (scan.call limit) := by
  rcases scan.call_cases limit with ⟨entry, -, hget, hcall⟩ | ⟨hend, hcall⟩
  · rw [hcall]
    have hlt := (List.getElem?_eq_some_iff.mp hget).1
    refine ⟨h.entries, Nat.succ_pos _, hlt, ?_, ?_, ?_, ?_⟩
    · intro j a ha hpassed
      rcases Nat.lt_succ_iff_lt_or_eq.mp hpassed with hbefore | hnow
      · exact List.mem_append_left _ (h.passed j a ha hbefore)
      · have hsame := h.entry hget hnow.symm
        rw [ha] at hsame
        cases hsame
        simp
    · intro hquiet
      have hat := h.entry hget (j := scan.offset) (by simp [hquiet])
      rw [List.take_add_one, hat, h.quiet hquiet]
      rfl
    · intro hadded
      rcases h.again hadded with ⟨a, ha, htwice⟩ | ⟨j, a, ha, hreported, hle⟩
      · left
        exact ⟨a, ha, Nat.le_trans htwice (by simp [List.count_append])⟩
      · rcases Nat.lt_or_eq_of_le hle with hbefore | hnow
        · right
          exact ⟨j, a, ha, List.mem_append_left _ hreported, hbefore⟩
        · -- The call comes to an entry that was reported before.
          have hsame := h.entry hget hnow
          rw [ha] at hsame
          cases hsame
          have honce := List.count_pos_iff.mpr hreported
          left
          refine ⟨_, List.mem_of_getElem? ha, ?_⟩
          simp only [List.count_append, List.count_singleton_self]
          omega
    · intro hended
      have hle := h.ended hended
      rcases hle with hlimit | hlength
      · exact Or.inl (Nat.le_succ_of_le hlimit)
      · exact Or.inr (Nat.le_succ_of_le hlength)
  · rw [hcall]
    exact ⟨h.entries, h.offset_pos, h.offset_le, h.passed, h.quiet, h.again, fun _ => hend⟩

/-- A new entry brings the scan back by one position. -/
theorem Progress.grow (h : Progress limit old added scan) (hlive : scan.ended = false)
    (entry : α) :
    Progress limit old (entry :: added) { scan with entries := entry :: scan.entries } := by
  have hpos := h.offset_pos
  have hle := h.offset_le
  refine ⟨by rw [h.entries, List.cons_append], hpos, ?_, ?_, by simp, ?_, ?_⟩
  · exact Nat.le_succ_of_le hle
  · intro j a ha hpassed
    apply h.passed j a ha
    simp only [List.length_cons] at hpassed
    omega
  · intro _
    by_cases hadded : added = []
    · -- The first new entry: the one reported last comes again.
      have hlength : scan.offset ≤ old.length := by
        rw [h.entries, hadded, List.nil_append] at hle
        exact hle
      have hlt : scan.offset - 1 < old.length := by omega
      right
      refine ⟨scan.offset - 1, old[scan.offset - 1], List.getElem?_eq_getElem hlt, ?_, ?_⟩
      · apply h.passed (scan.offset - 1) _ (List.getElem?_eq_getElem hlt)
        rw [hadded, List.length_nil]
        omega
      · rw [hadded, List.length_singleton]
        change scan.offset ≤ 1 + (scan.offset - 1)
        omega
    · rcases h.again hadded with htwice | ⟨j, a, ha, hreported, hoffset⟩
      · exact Or.inl htwice
      · right
        refine ⟨j, a, ha, hreported, ?_⟩
        rw [List.length_cons]
        change scan.offset ≤ added.length + 1 + j
        omega
  · intro hended
    have hfalse : scan.ended = true := hended
    rw [hlive] at hfalse
    cases hfalse

variable {events : List (Scan α × Event α × Scan α)} (hnodup : old.Nodup) (hlimit : 0 < limit)
  (h : Trace (Step limit) (Scan.call limit ⟨old, 0, [], false⟩) events scan)
  (hended : scan.ended = true)

include hlimit h hended

end Runs

end OperateSystem.Scanning

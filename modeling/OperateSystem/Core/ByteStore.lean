import Mathlib.Data.List.Basic
import Mathlib.Tactic.Common

/-!
# Stores of addressed cells

A store is a function from addresses to cells.  `slice` reads a range of
consecutive cells and `overwrite` replaces one; the lemmas say how the two
compose and what a write leaves alone.
-/

namespace OperateSystem.ByteStore

variable {α : Type*}

/-- The `n` cells from address `ofs` on. -/
def slice (mem : ℕ → α) (ofs n : ℕ) : List α :=
  (List.range' ofs n).map mem

/-- The store after `content` has been written from address `ofs` on. -/
def overwrite (mem : ℕ → α) (ofs : ℕ) (content : List α) : ℕ → α :=
  fun addr => if ofs ≤ addr then content[addr - ofs]?.getD (mem addr) else mem addr

/-- A buffer after `content` has been copied over it from position `pos` on. -/
def patch (buf : List α) (pos : ℕ) (content : List α) : List α :=
  buf.take pos ++ content ++ buf.drop (pos + content.length)

section Slice

variable (mem : ℕ → α) (ofs n : ℕ)

@[simp]
theorem length_slice : (slice mem ofs n).length = n := by
  simp [slice]

@[simp]
theorem slice_zero : slice mem ofs 0 = [] := rfl

theorem getElem?_slice (i : ℕ) :
    (slice mem ofs n)[i]? = if i < n then some (mem (ofs + i)) else none := by
  by_cases hi : i < n <;> simp [slice, hi]

theorem slice_add (m : ℕ) :
    slice mem ofs (m + n) = slice mem ofs m ++ slice mem (ofs + m) n := by
  simp [slice, ← List.range'_append_1]

theorem slice_succ : slice mem ofs (n + 1) = mem ofs :: slice mem (ofs + 1) n := by
  rw [Nat.add_comm n 1, slice_add]
  rfl

theorem take_slice (m : ℕ) (hle : m ≤ n) :
    (slice mem ofs n).take m = slice mem ofs m := by
  obtain ⟨rest, rfl⟩ := Nat.exists_eq_add_of_le hle
  rw [slice_add]
  exact List.take_left' (length_slice mem ofs m)

theorem drop_slice (m : ℕ) :
    (slice mem ofs (m + n)).drop m = slice mem (ofs + m) n := by
  rw [slice_add]
  exact List.drop_left' (length_slice mem ofs m)

end Slice

/-- Reading a range depends on the cells of that range only. -/
theorem slice_congr {mem mem' : ℕ → α} {ofs n : ℕ}
    (hsame : ∀ addr, ofs ≤ addr → addr < ofs + n → mem addr = mem' addr) :
    slice mem ofs n = slice mem' ofs n := by
  apply List.map_congr_left
  intro addr haddr
  rw [List.mem_range'_1] at haddr
  exact hsame addr haddr.1 haddr.2

/-- Stores with the same slice have the same cells in it. -/
theorem apply_eq_of_slice_eq {mem mem' : ℕ → α} {ofs n addr : ℕ}
    (h : slice mem' ofs n = slice mem ofs n) (hlo : ofs ≤ addr) (hhi : addr < ofs + n) :
    mem' addr = mem addr := by
  obtain ⟨i, rfl⟩ := Nat.exists_eq_add_of_le hlo
  have hlt := Nat.lt_of_add_lt_add_left hhi
  have hcell := congrArg (fun cells => cells[i]?) h
  simp only [getElem?_slice, if_pos hlt] at hcell
  exact Option.some.inj hcell

/-- A cell stored behind the first `n`. -/
theorem slice_update_concat (mem : ℕ → α) (n : ℕ) (a : α) :
    slice (Function.update mem n a) 0 (n + 1) = slice mem 0 n ++ [a] := by
  rw [slice_add]
  congr 1
  · apply slice_congr
    intro i _ hi
    exact Function.update_of_ne (by omega) _ _
  · simp [slice]

section Overwrite

variable (mem : ℕ → α) (ofs : ℕ) (content : List α)

@[simp]
theorem overwrite_nil : overwrite mem ofs [] = mem := by
  funext addr
  simp [overwrite]

theorem overwrite_of_lt {addr : ℕ} (hlt : addr < ofs) :
    overwrite mem ofs content addr = mem addr := by
  simp [overwrite, Nat.not_le.mpr hlt]

theorem overwrite_of_ge {addr : ℕ} (hge : ofs + content.length ≤ addr) :
    overwrite mem ofs content addr = mem addr := by
  have hnone : content[addr - ofs]? = none := by
    rw [List.getElem?_eq_none_iff]
    omega
  simp [overwrite, hnone]

theorem overwrite_add {i : ℕ} (hi : i < content.length) :
    overwrite mem ofs content (ofs + i) = content[i] := by
  simp [overwrite, hi]

/-- A written cell holds the byte written there; every other cell is as it was. -/
theorem overwrite_cases (addr : ℕ) :
    (∃ i, ∃ hi : i < content.length,
      addr = ofs + i ∧ overwrite mem ofs content addr = content[i]) ∨
    ((addr < ofs ∨ ofs + content.length ≤ addr) ∧
      overwrite mem ofs content addr = mem addr) := by
  by_cases hlt : addr < ofs
  · exact Or.inr ⟨Or.inl hlt, overwrite_of_lt mem ofs content hlt⟩
  · by_cases hge : ofs + content.length ≤ addr
    · exact Or.inr ⟨Or.inr hge, overwrite_of_ge mem ofs content hge⟩
    · have hi : addr - ofs < content.length := by omega
      have haddr : addr = ofs + (addr - ofs) := by omega
      apply Or.inl
      refine ⟨addr - ofs, hi, haddr, ?_⟩
      calc
        overwrite mem ofs content addr
            = overwrite mem ofs content (ofs + (addr - ofs)) := by rw [← haddr]
        _ = content[addr - ofs] := overwrite_add mem ofs content hi

theorem overwrite_append (rest : List α) :
    overwrite mem ofs (content ++ rest)
      = overwrite (overwrite mem ofs content) (ofs + content.length) rest := by
  funext addr
  simp only [overwrite, List.getElem?_append]
  by_cases hle : ofs ≤ addr
  · by_cases hlt : addr - ofs < content.length
    · have hstart : ¬ ofs + content.length ≤ addr := by omega
      simp [hle, hlt, hstart]
    · have hstart : ofs + content.length ≤ addr := by omega
      simp [hle, hlt, hstart, Nat.sub_sub]
  · have hstart : ¬ ofs + content.length ≤ addr := by omega
    simp [hle, hstart]

@[simp]
theorem slice_overwrite_self :
    slice (overwrite mem ofs content) ofs content.length = content := by
  apply List.ext_getElem?
  intro i
  rw [getElem?_slice]
  by_cases hi : i < content.length
  · rw [if_pos hi, overwrite_add mem ofs content hi, List.getElem?_eq_getElem hi]
  · rw [if_neg hi, List.getElem?_eq_none_iff.mpr (by omega)]

/-- A write leaves every range alone that it does not meet. -/
theorem slice_overwrite_of_disjoint {start n : ℕ}
    (hdisjoint : start + n ≤ ofs ∨ ofs + content.length ≤ start) :
    slice (overwrite mem ofs content) start n = slice mem start n := by
  apply slice_congr
  intro addr hge hlt
  cases hdisjoint with
  | inl hbefore => exact overwrite_of_lt mem ofs content (by omega)
  | inr hafter => exact overwrite_of_ge mem ofs content (by omega)

/-- Writing back what is already there changes nothing. -/
theorem overwrite_slice (n : ℕ) : overwrite mem ofs (slice mem ofs n) = mem := by
  funext addr
  rcases overwrite_cases mem ofs (slice mem ofs n) addr with ⟨i, hi, haddr, hval⟩ | ⟨-, hval⟩
  · have hlt : i < n := by simpa using hi
    have hget := getElem?_slice mem ofs n i
    rw [List.getElem?_eq_getElem hi, if_pos hlt] at hget
    rw [hval, haddr]
    exact Option.some.inj hget
  · exact hval

end Overwrite

/-- Read, patch, write back: only the patched range changes. -/
theorem overwrite_patch_slice (mem : ℕ → α) (ofs n bias : ℕ) (content : List α)
    (hfit : bias + content.length ≤ n) :
    overwrite mem ofs (patch (slice mem ofs n) bias content)
      = overwrite mem (ofs + bias) content := by
  obtain ⟨rest, rfl⟩ := Nat.exists_eq_add_of_le hfit
  have hhead : (slice mem ofs (bias + content.length + rest)).take bias
      = slice mem ofs bias := take_slice _ _ _ _ (by omega)
  have hlen : ofs + (slice mem ofs bias ++ content).length
      = ofs + (bias + content.length) := by simp
  have htail : slice mem (ofs + (bias + content.length)) rest
      = slice (overwrite mem (ofs + bias) content) (ofs + (bias + content.length)) rest :=
    (slice_overwrite_of_disjoint _ _ _ (Or.inr (by omega))).symm
  rw [patch, hhead, drop_slice, overwrite_append, overwrite_append, overwrite_slice,
    length_slice, hlen, htail, overwrite_slice]

section Patch

variable (buf : List α) (pos : ℕ) (content : List α)

/-- Copying over what comes after a first part. -/
theorem patch_append (first rest : List α) {pos : ℕ} (hpos : pos = first.length) :
    patch (first ++ rest) pos content = first ++ content ++ rest.drop content.length := by
  rw [patch, hpos, List.take_left, List.drop_length_add_append]

theorem length_patch (hfit : pos + content.length ≤ buf.length) :
    (patch buf pos content).length = buf.length := by
  simp only [patch, List.length_append, List.length_take, List.length_drop]
  omega

end Patch

end OperateSystem.ByteStore

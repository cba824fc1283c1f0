import Mathlib.Data.List.Range
import Mathlib.Logic.Function.Basic

/-!
# Memory through a translation

A range of addresses `a, a + 1, …` is read and written through a translation to the cells
of a memory.  Where the translation is injective on the range, what was written is read
back; the cells that no address of the range translates to are left alone.
-/

namespace OperateSystem.Translation

variable {Cell Value : Type*} {t : ℕ → Cell} {mem : Cell → Value} {cell : Cell}

/-- The values that are read at `count` addresses from `a` on. -/
def readAt (t : ℕ → Cell) (mem : Cell → Value) (a count : ℕ) : List Value :=
  (List.range' a count).map fun addr => mem (t addr)

/-- The addresses from `a` on get the values, one after the other. -/
def writeAt [DecidableEq Cell] (t : ℕ → Cell) (mem : Cell → Value) (a : ℕ) :
    List Value → Cell → Value
  | [] => mem
  | value :: values => writeAt t (Function.update mem (t a) value) (a + 1) values

@[simp] theorem length_readAt (a count : ℕ) : (readAt t mem a count).length = count := by
  rw [readAt, List.length_map, List.length_range']

/-- Reading is splitting the range anywhere. -/
theorem readAt_add (a n k : ℕ) :
    readAt t mem a (n + k) = readAt t mem a n ++ readAt t mem (a + n) k := by
  rw [readAt, readAt, readAt, ← List.map_append, List.range'_append_1]

variable [DecidableEq Cell]

theorem writeAt_append (a : ℕ) (values values' : List Value) :
    writeAt t mem a (values ++ values')
      = writeAt t (writeAt t mem a values) (a + values.length) values' := by
  induction values generalizing mem a with
  | nil => rfl
  | cons value values ih =>
      rw [List.cons_append, writeAt, writeAt, ih, List.length_cons]
      congr 1
      omega

/-- The other cells are left alone. -/
theorem writeAt_of_ne {a : ℕ} {values : List Value}
    (h : ∀ i, i < values.length → t (a + i) ≠ cell) : writeAt t mem a values cell = mem cell := by
  induction values generalizing mem a with
  | nil => rfl
  | cons value values ih =>
      have hfirst : t a ≠ cell := h 0 (Nat.zero_lt_succ _)
      have hrest : ∀ i, i < values.length → t (a + 1 + i) ≠ cell := by
        intro i hi
        rw [Nat.add_right_comm]
        exact h (i + 1) (Nat.succ_lt_succ hi)
      rw [writeAt, ih hrest, Function.update_of_ne hfirst.symm]

/-- Under an injective translation the range reads as what was written. -/
theorem readAt_writeAt {a : ℕ} {values : List Value}
    (hinj : ∀ i j, i < values.length → j < values.length → t (a + i) = t (a + j) → i = j) :
    readAt t (writeAt t mem a values) a values.length = values := by
  induction values generalizing mem a with
  | nil => rfl
  | cons value values ih =>
      have hfirst : writeAt t (Function.update mem (t a) value) (a + 1) values (t a) = value := by
        rw [writeAt_of_ne, Function.update_self]
        intro i hi heq
        rw [Nat.add_right_comm, Nat.add_assoc] at heq
        have hzero := hinj (i + 1) 0 (Nat.succ_lt_succ hi) (Nat.zero_lt_succ _) heq
        omega
      have hrest := @ih (Function.update mem (t a) value) (a + 1) (by
        intro i j hi hj heq
        rw [Nat.add_right_comm, Nat.add_assoc, Nat.add_right_comm a, Nat.add_assoc a] at heq
        exact Nat.succ.inj (hinj _ _ (Nat.succ_lt_succ hi) (Nat.succ_lt_succ hj) heq))
      rw [List.length_cons, Nat.add_comm, readAt_add, writeAt, hrest]
      simp [readAt, hfirst]

end OperateSystem.Translation

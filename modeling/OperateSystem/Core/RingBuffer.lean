import Mathlib.Algebra.Group.Nat.Defs
import Mathlib.Data.List.Range
import Mathlib.Logic.Function.Basic

/-!
# Ring buffers with free-running counters

A ring of `size` cells is driven by two counters that only go up and wrap around at
`2 ^ w`.  The cell of a counter is its remainder modulo `size`, and the number of filled
cells is the wrapped difference.  When `size` divides `2 ^ w` the wrap is not visible:
the filled cells, taken in the order of the ring, form a queue.
-/

namespace OperateSystem.RingBuffer

variable {α : Type*} {w : ℕ}

/-- The cells of a ring with the counters of its two ends. -/
structure Buffer (w : ℕ) (α : Type*) where
  data : ℕ → α
  nread : BitVec w
  nwrite : BitVec w

namespace Buffer

/-- The number of filled cells. -/
def count (b : Buffer w α) : ℕ := (b.nwrite - b.nread).toNat

/-- The cell that is read next. -/
def front (size : ℕ) (b : Buffer w α) : α := b.data (b.nread.toNat % size)

def pop (b : Buffer w α) : Buffer w α := { b with nread := b.nread + 1 }

def push (size : ℕ) (b : Buffer w α) (a : α) : Buffer w α :=
  { b with
    data := Function.update b.data (b.nwrite.toNat % size) a
    nwrite := b.nwrite + 1 }

/-- The filled cells, in the order of the ring. -/
def contents (size : ℕ) (b : Buffer w α) : List α :=
  (List.range b.count).map fun k => b.data ((b.nread + BitVec.ofNat w k).toNat % size)

/-! ## The tests on the counters -/

theorem count_eq_zero_iff (b : Buffer w α) : b.count = 0 ↔ b.nread = b.nwrite := by
  rw [count, ← @BitVec.toNat_zero w, BitVec.toNat_inj, BitVec.sub_eq_iff_eq_add, BitVec.zero_add]
  exact eq_comm

theorem count_eq_size_iff {size : ℕ} (hsize : size < 2 ^ w) (b : Buffer w α) :
    b.count = size ↔ b.nwrite = b.nread + BitVec.ofNat w size := by
  have hnat : (BitVec.ofNat w size).toNat = size := by
    rw [BitVec.toNat_ofNat, Nat.mod_eq_of_lt hsize]
  calc b.count = size ↔ b.count = (BitVec.ofNat w size).toNat := by rw [hnat]
    _ ↔ b.nwrite - b.nread = BitVec.ofNat w size := BitVec.toNat_inj
    _ ↔ b.nwrite = b.nread + BitVec.ofNat w size := by
      rw [BitVec.sub_eq_iff_eq_add, BitVec.add_comm]

/-! ## The ring as a queue -/

section Queue

variable {size : ℕ} {b : Buffer w α}

/-- The cell of a counter moves through the ring, also where the counter wraps. -/
theorem cell_add (hdvd : size ∣ 2 ^ w) (i : BitVec w) (k : ℕ) :
    (i + BitVec.ofNat w k).toNat % size = (i.toNat + k) % size := by
  rw [BitVec.toNat_add, BitVec.toNat_ofNat, Nat.mod_mod_of_dvd _ hdvd, Nat.add_mod,
    Nat.mod_mod_of_dvd _ hdvd, ← Nat.add_mod]

/-- The counter of the writer is ahead of that of the reader by the filled cells. -/
theorem nwrite_eq (b : Buffer w α) : b.nwrite = b.nread + BitVec.ofNat w b.count := by
  rw [count, BitVec.ofNat_toNat, BitVec.setWidth_eq, BitVec.add_comm, BitVec.sub_add_cancel]

/-- Different filled cells are different cells of the ring. -/
theorem cell_ne {start i j : ℕ} (hlt : i < j) (hfit : j < size) :
    (start + i) % size ≠ (start + j) % size := by
  intro heq
  have hdvd : size ∣ (start + j) - (start + i) :=
    Nat.dvd_of_mod_eq_zero (Nat.sub_mod_eq_zero_of_mod_eq heq.symm)
  have hzero := Nat.eq_zero_of_dvd_of_lt hdvd (by omega)
  omega

theorem count_push (hsize : size < 2 ^ w) (hroom : b.count < size) (a : α) :
    (b.push size a).count = b.count + 1 := by
  have hnext : (b.push size a).nwrite = b.nread + BitVec.ofNat w (b.count + 1) := by
    rw [BitVec.ofNat_add, ← BitVec.add_assoc, ← nwrite_eq]
    rfl
  exact (count_eq_size_iff (by omega) (b.push size a)).mpr hnext

/-- A push into a ring with room appends to the queue. -/
theorem contents_push (hdvd : size ∣ 2 ^ w) (hsize : size < 2 ^ w) (hroom : b.count < size)
    (a : α) : (b.push size a).contents size = b.contents size ++ [a] := by
  have hlast : b.nwrite.toNat % size = (b.nread.toNat + b.count) % size := by
    rw [← cell_add hdvd, ← nwrite_eq]
  rw [contents, count_push hsize hroom, List.range_succ, List.map_append, List.map_singleton]
  congr 1
  · apply List.map_congr_left
    intro k hk
    have hne : (b.nread + BitVec.ofNat w k).toNat % size ≠ b.nwrite.toNat % size := by
      rw [hlast, cell_add hdvd]
      exact cell_ne (List.mem_range.mp hk) hroom
    exact Function.update_of_ne hne ..
  · simp only [push, cell_add hdvd, hlast, Function.update_self]

theorem count_pop (hpos : 0 < b.count) : b.pop.count + 1 = b.count := by
  have hlt : b.count < 2 ^ w := (b.nwrite - b.nread).isLt
  have hnext : b.pop.nwrite = b.pop.nread + BitVec.ofNat w (b.count - 1) := by
    have hone : (1 : BitVec w) = BitVec.ofNat w 1 := rfl
    rw [pop, BitVec.add_assoc, hone, ← BitVec.ofNat_add, Nat.add_sub_cancel' hpos, ← nwrite_eq]
  have hcount := (count_eq_size_iff (by omega) b.pop).mpr hnext
  omega

/-- A pop takes the front of the queue. -/
theorem contents_pop (hpos : 0 < b.count) :
    b.contents size = b.front size :: b.pop.contents size := by
  rw [contents, ← count_pop hpos, List.range_succ_eq_map, List.map_cons, List.map_map, contents]
  congr 1
  · simp [front]
  · apply List.map_congr_left
    intro k hk
    have hnext : b.nread + BitVec.ofNat w (k + 1) = b.pop.nread + BitVec.ofNat w k := by
      rw [Nat.add_comm, BitVec.ofNat_add, ← BitVec.add_assoc]
      rfl
    simp only [Function.comp_apply, Nat.succ_eq_add_one, hnext]
    rfl

end Queue

end Buffer

end OperateSystem.RingBuffer

import OperateSystem.Core.ByteStore
import Mathlib.Data.List.Forall2

/-!
# Blocks pushed on a stack that grows down

Blocks of cells are pushed one after the other below a stack pointer, and each start
is rounded down to a multiple of `align`.  The blocks lie below each other, so that
pushing one leaves those above it alone.
-/

namespace OperateSystem.DownStack

open OperateSystem.ByteStore

/-- What a block of `n` cells takes from the stack. -/
def room (align n : ℕ) : ℕ := (n + (align - 1)) / align * align

/-- What blocks of these lengths take together. -/
def total (align : ℕ) : List ℕ → ℕ
  | [] => 0
  | n :: ns => room align n + total align ns

/-- Where blocks of these lengths start when they are pushed below `sp`. -/
def addresses (align : ℕ) : (sp : ℕ) → List ℕ → List ℕ
  | _, [] => []
  | sp, n :: ns => (sp - room align n) :: addresses align (sp - room align n) ns

section Room

variable {align n sp : ℕ}

theorem le_room (halign : 0 < align) : n ≤ room align n := by
  have hdiv := Nat.div_add_mod (n + (align - 1)) align
  have hmod := Nat.mod_lt (n + (align - 1)) halign
  rw [room, Nat.mul_comm]
  omega

theorem sub_room_mod (hsp : sp % align = 0) : (sp - room align n) % align = 0 := by
  obtain ⟨k, rfl⟩ := Nat.dvd_of_mod_eq_zero hsp
  rw [room, Nat.mul_comm _ align, ← Nat.mul_sub, Nat.mul_mod_right]

/-- Subtracting the length and rounding down takes the room of the block. -/
theorem push_eq (halign : 0 < align) (hsp : sp % align = 0) (hle : n ≤ sp) :
    sp - n - (sp - n) % align = sp - room align n := by
  obtain ⟨k, rfl⟩ := Nat.dvd_of_mod_eq_zero hsp
  have hround : align * k - n - (align * k - n) % align = (align * k - n) / align * align := by
    have hdiv := Nat.div_add_mod' (align * k - n) align
    omega
  rw [hround, room]
  cases n with
  | zero =>
      have hnone : (0 + (align - 1)) / align = 0 := Nat.div_eq_of_lt (by omega)
      rw [hnone, Nat.sub_zero, Nat.zero_mul, Nat.sub_zero, Nat.mul_div_cancel_left k halign,
        Nat.mul_comm]
  | succ x =>
      have hceil : (x + 1 + (align - 1)) / align = x / align + 1 := by
        rw [show x + 1 + (align - 1) = x + align by omega, Nat.add_div_right x halign]
      rw [Nat.mul_sub_div x align k (by omega), hceil, Nat.sub_mul, Nat.mul_comm k]

end Room

section Blocks

variable {align sp : ℕ} {ns : List ℕ}

theorem length_addresses : (addresses align sp ns).length = ns.length := by
  induction ns generalizing sp with
  | nil => rfl
  | cons n ns ih => rw [addresses, List.length_cons, List.length_cons, ih]

theorem sub_total_mod (hsp : sp % align = 0) : (sp - total align ns) % align = 0 := by
  induction ns generalizing sp with
  | nil => exact hsp
  | cons n ns ih =>
      rw [total, Nat.sub_add_eq]
      exact ih (sub_room_mod hsp)

theorem le_total_of_mem {n : ℕ} (halign : 0 < align) (hn : n ∈ ns) : n ≤ total align ns := by
  induction ns with
  | nil => cases hn
  | cons n' ns ih =>
      rw [total]
      rcases List.mem_cons.mp hn with rfl | hn
      · have hroom := le_room (n := n) halign
        omega
      · have hrest := ih hn
        omega

/-- Blocks that are not empty take a step of `align` each. -/
theorem length_mul_le_total (halign : 0 < align) (hpos : ∀ n ∈ ns, 0 < n) :
    ns.length * align ≤ total align ns := by
  induction ns with
  | nil => simp
  | cons n ns ih =>
      have hn := hpos n (by simp)
      have hstep : 1 ≤ (n + (align - 1)) / align := (Nat.one_le_div_iff halign).mpr (by omega)
      have hroom : 1 * align ≤ room align n := Nat.mul_le_mul_right align hstep
      have hrest := ih fun n' hn' => hpos n' (by simp [hn'])
      rw [List.length_cons, Nat.succ_mul, total]
      omega

/-- Every block lies between the last stack pointer and the first. -/
theorem addresses_within (halign : 0 < align) (hfits : total align ns ≤ sp) :
    List.Forall₂ (fun address n => sp - total align ns ≤ address ∧ address + n ≤ sp)
      (addresses align sp ns) ns := by
  induction ns generalizing sp with
  | nil => exact List.Forall₂.nil
  | cons n ns ih =>
      rw [total] at hfits ⊢
      have hroom := le_room (n := n) halign
      refine List.Forall₂.cons ⟨by omega, by omega⟩ ?_
      apply (ih (by omega)).imp
      intro address n' hblock
      omega

/-- Every block ends where the one before it starts, or below. -/
theorem addresses_pairwise (halign : 0 < align) (hfits : total align ns ≤ sp) :
    ((addresses align sp ns).zip ns).Pairwise
      fun block block' => block'.1 + block'.2 ≤ block.1 := by
  induction ns generalizing sp with
  | nil => exact List.Pairwise.nil
  | cons n ns ih =>
      rw [total] at hfits
      rw [addresses, List.zip_cons_cons, List.pairwise_cons]
      refine ⟨?_, ih (by omega)⟩
      intro block hblock
      have hwithin := addresses_within halign (show total align ns ≤ sp - room align n by omega)
      exact (List.forall₂_iff_zip.mp hwithin).2 hblock |>.2

end Blocks

/-- The blocks stand at their addresses, between `lo` and `hi`. -/
def Holds {α : Type*} (mem : ℕ → α) (lo hi : ℕ) : List ℕ → List (List α) → Prop :=
  List.Forall₂ fun address block =>
    lo ≤ address ∧ address + block.length ≤ hi ∧ slice mem address block.length = block

section Holds

variable {α : Type*} {mem mem' : ℕ → α} {lo lo' hi hi' : ℕ} {addresses : List ℕ}
  {blocks : List (List α)}

/-- What is written outside of the range does not matter. -/
theorem Holds.congr (h : Holds mem lo hi addresses blocks)
    (hsame : ∀ addr, lo ≤ addr → addr < hi → mem' addr = mem addr) :
    Holds mem' lo hi addresses blocks := by
  apply h.imp
  rintro address block ⟨hlo, hhi, hblock⟩
  refine ⟨hlo, hhi, ?_⟩
  rw [← hblock, length_slice]
  exact slice_congr fun addr hge hlt => hsame addr (by omega) (by omega)

theorem Holds.mono (h : Holds mem lo hi addresses blocks) (hlo : lo' ≤ lo) (hhi : hi ≤ hi') :
    Holds mem lo' hi' addresses blocks :=
  h.imp fun _ _ hblock =>
    ⟨Nat.le_trans hlo hblock.1, Nat.le_trans hblock.2.1 hhi, hblock.2.2⟩

end Holds

end OperateSystem.DownStack

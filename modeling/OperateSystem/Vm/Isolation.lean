import OperateSystem.Vm.Refinement

/-!
# What the hardware lets a user reach

A user reaches the pages that the page table of its process maps with `PTE_U`.  In every run
each of these pages lies in one place, the user memory of that process: no user reaches a page
on the free list, a page table, a trapframe, a kernel stack or a page of another process.  The
kernel page table of the process, which maps the same memory, has no page with `PTE_U`.
-/

namespace OperateSystem.Vm

open OperateSystem.PointerTree OperateSystem.Traces

/-- The pages that the user of a process can reach. -/
def Reaches (s : Kernel) (i : ℕ) : Set ℕ :=
  { page | ∃ user vpn, (s.proc i).pagetable = some user ∧ vpn < 2 ^ 26 ∧ Open s.machine user vpn ∧
    pte2pa (entry s.machine.mem user vpn) = page }

/-- No page of the table is a page of a user. -/
def KernelOnly (m : Machine) (root : ℕ) : Prop :=
  ∀ vpn, vpn < 2 ^ 26 → entry m.mem root vpn &&& pteU = 0

section Isolation

variable {L : Layout} {m : Machine} {p : Proc} {s₀ s : Kernel} {frame user kern i : ℕ}
  {calls : List (Kernel × Event × Kernel)}

/-- Ranges that are mapped without `PTE_U` leave no page with it. -/
theorem rangesMap_not_user {ranges : List Range} {map : ℕ → Word}
    (hranges : ∀ r ∈ ranges, r.Fits ∧ r.perm &&& pteU = 0) (hmap : ∀ vpn, map vpn &&& pteU = 0)
    (vpn : ℕ) : rangesMap map ranges vpn &&& pteU = 0 := by
  induction ranges generalizing map with
  | nil => exact hmap vpn
  | cons r ranges ih =>
      rw [List.forall_mem_cons] at hranges
      obtain ⟨⟨hfits, hperm⟩, hrest⟩ := hranges
      refine ih hrest fun vpn => ?_
      dsimp only [rangeMap]
      split
      · rename_i hin
        have hpage := hfits.page
        rw [BitVec.or_assoc, entry_and (show r.page + (vpn - r.vpn) < 2 ^ 52 by omega) (by decide),
          BitVec.and_or_distrib_right, hperm]
        decide
      · exact hmap vpn

/-- The words that `allocproc` installs in a kernel page table are not for users. -/
theorem kernelMap_not_user (L : Layout) {kstack kstackPa : ℕ} (hkstack : kstack < 2 ^ 26)
    (hkstackPa : kstackPa < 2 ^ 52) (vpn : ℕ) : kernelMap L kstack kstackPa vpn &&& pteU = 0 := by
  have hrw : (pteR ||| pteW) &&& pteU = 0 := by decide
  have hrx : (pteR ||| pteX) &&& pteU = 0 := by decide
  apply rangesMap_not_user
  · intro r hr
    rcases List.mem_append.mp hr with hr | hr
    · refine ⟨kernelRanges_fit L r hr, ?_⟩
      simp only [kernelRanges, List.mem_cons, List.not_mem_nil, or_false] at hr
      rcases hr with rfl | rfl | rfl | rfl | rfl | rfl
      all_goals first | exact hrw | exact hrx
    · obtain rfl := List.mem_singleton.mp hr
      have hleaf : Leaf (pteR ||| pteW) := by decide
      exact ⟨⟨Nat.zero_lt_one, hkstack, hkstackPa, hleaf⟩, hrw⟩
  · intro vpn
    exact BitVec.zero_and

/-- The mirror of a page is not for users. -/
theorem mirrorWord_not_user (pte : Word) : mirrorWord pte &&& pteU = 0 := by
  rw [mirrorWord, BitVec.or_assoc, entry_and (pte2pa_lt pte) (by decide),
    BitVec.and_or_distrib_right, BitVec.and_assoc, show ~~~pteU &&& pteU = 0#64 by decide,
    show pteV &&& pteU = 0#64 by decide, BitVec.or_zero, BitVec.and_zero]
  rfl

theorem Live.kernelOnly (h : Live L m p frame user kern) (hkstack : p.kstack < 2 ^ 26)
    (hkstackPa : p.kstackPa < 2 ^ 52) : KernelOnly m kern := by
  intro vpn hvpn
  by_cases hlt : vpn < pages p.sz
  · rw [h.mirror vpn hlt]
    exact mirrorWord_not_user _
  · rw [h.kernRest vpn (by omega) hvpn]
    exact kernelMap_not_user L hkstack hkstackPa vpn

/-- In every run a page that the user of a process can reach lies in the user memory of that
process and in no other place, and the kernel page table of the process has no page for
users. -/
theorem user_reaches_own_memory (hapart : Apart m ∅) (hnull : 0 ∉ m.free)
    (hboot : boot L m = .ok s₀) (hrun : Trace (Activity L) s₀ calls s) (hi : i < L.nproc)
    (huse : (s.proc i).state ≠ .unused) :
    (∀ page ∈ Reaches s i, page ∈ m.free ∧ ∃ vpn, ∀ place,
      page ∈ placePage L s place ↔ place = .process i (.user vpn)) ∧
    ∃ kern, (s.proc i).kPagetable = some kern ∧ KernelOnly s.machine kern := by
  have haccounted := ((boot_accounted hapart hnull hboot).trace hrun).1
  obtain ⟨frame, user, kern, hlive, -⟩ := haccounted.owners.live hi huse
  have hsound := haccounted.owners.sound i hi
  refine ⟨?_, kern, hlive.kPagetable, hlive.kernelOnly ?_ hsound.kstackPa⟩
  · rintro page ⟨user', vpn, huser, hvpn, hopen, rfl⟩
    obtain rfl : user = user' := Option.some.inj (hlive.pagetable.symm.trans huser)
    have hlt := hlive.open_below hvpn hopen
    have hround : pgRoundUp (s.proc i).sz = pages (s.proc i).sz * 4096 :=
      pgRoundUp_pages (by have := hlive.size_lt; omega)
    have hplace : pte2pa (entry s.machine.mem user vpn)
        ∈ placePage L s (.process i (.user vpn)) := by
      refine ⟨hi, huse, ?_, user, huser, hopen.1, hlive.space.table.leaf_entry hopen.1, rfl⟩
      rw [hround, pgSize]
      omega
    refine ⟨(haccounted.places.mem_iff _).mpr ⟨_, hplace⟩, vpn, fun place => ?_⟩
    constructor
    · intro hpage
      exact haccounted.places.unique _ _ _ hpage hplace
    · rintro rfl
      exact hplace
  · rw [hsound.kstack]
    have hlt := L.kstack_lt i hi
    rw [trapframe] at hlt
    omega

theorem user_reaches_own_memory_first : ∃ (m : Machine) (s₀ s : Kernel),
    boot virt m = .ok s₀ ∧ Vm.userinit virt s₀ = .ok (true, s) ∧
    (∀ page ∈ Reaches s 0, page ∈ m.free ∧ ∃ vpn, ∀ place,
      page ∈ placePage virt s place ↔ place = .process 0 (.user vpn)) ∧
    ∃ kern, (s.proc 0).kPagetable = some kern ∧ KernelOnly s.machine kern := by
  obtain ⟨m, s₀, s, hapart, hnull, hboot, hinit, hstate, -⟩ := exists_first_run
  have huse : (s.proc 0).state ≠ .unused := by
    rw [hstate]
    decide
  exact ⟨m, s₀, s, hboot, hinit, user_reaches_own_memory hapart hnull hboot
    (Trace.nil.snoc (.userinit hinit)) (by decide) huse⟩

end Isolation

end OperateSystem.Vm

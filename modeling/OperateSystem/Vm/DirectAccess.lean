import OperateSystem.Vm.Calls
import OperateSystem.Vm.UserCopy

/-!
# Direct access to user memory

`copyin` looks up every page of the source in the user page table and refuses a page
without `PTE_U`.  `copyin_new` loads from the same addresses through the kernel page table
of the process, where `kvmcopy` has put all pages of user memory, without `PTE_U`.  The
guard page below the stack has lost `PTE_U` in the user table, so `copyin` refuses it; in
the mirror it looks like any other page.
-/

namespace OperateSystem.Vm

open OperateSystem.PointerTree OperateSystem.Invariant OperateSystem.Translation

/-- A load of the kernel through a page table: the page has to be mapped and readable, and
it must not be a page of the user. -/
def loadByte (m : Machine) (root va : ℕ) : Option (BitVec 8) :=
  if Valid (entry m.mem root (va / pgSize)) ∧ entry m.mem root (va / pgSize) &&& pteR ≠ 0 ∧
      entry m.mem root (va / pgSize) &&& pteU = 0 then some (mappedByte m root va)
  else none

/-- The two ways to the bytes agree: `copyin` succeeds if and only if the kernel can load
every byte, and then the bytes are the same. -/
def Agrees (m : Machine) (p : Proc) (srcva len : ℕ) : Prop :=
  ∃ user kern result, p.pagetable = some user ∧ p.kPagetable = some kern ∧
    copyin m user srcva len = .ok result ∧
    (result.isSome ↔ ∀ va, srcva ≤ va → va < srcva + len → (loadByte m kern va).isSome) ∧
    ∀ bytes, result = some bytes →
      bytes.map some = (List.range' srcva len).map (loadByte m kern)

/-- The pages of user memory that the user may not use. -/
def guardPages (m : Machine) (p : Proc) : Set ℕ :=
  { vpn | vpn < pages p.sz ∧
    ∃ user, p.pagetable = some user ∧ entry m.mem user vpn &&& pteU = 0 }

section Mirror

variable {L : Layout} {m : Machine} {p : Proc} {frame user kern : ℕ}

/-- The kernel can load every byte of user memory through the mirror. -/
theorem Live.loadByte_eq (h : Live L m p frame user kern) (hflags : Flagged m user p.sz) {va : ℕ}
    (hva : va < p.sz) : loadByte m kern va = some (mappedByte m user va) := by
  have hvpn : va / pgSize < pages p.sz := by
    rw [pages, pgSize]
    omega
  have hword := mirrorWord_of_flags (hflags.flags _ hvpn)
  have hpa := pte2pa_lt (entry m.mem user (va / pgSize))
  have hkern := h.mirror _ hvpn
  rw [hword] at hkern
  have htarget : pte2pa (entry m.mem kern (va / pgSize))
      = pte2pa (entry m.mem user (va / pgSize)) := by
    rw [hkern]
    exact pte2pa_entry hpa (by decide)
  rw [loadByte, if_pos, mappedByte, mappedByte, htarget]
  refine ⟨h.kern_valid hvpn, ?_, ?_⟩
  · rw [hkern, entry_and hpa (by decide)]
    decide
  · rw [hkern, entry_and hpa (by decide)]
    decide

/-- A page of user memory is open or a guard page. -/
theorem Live.open_iff (h : Live L m p frame user kern) {vpn : ℕ} (hvpn : vpn < pages p.sz) :
    Open m user vpn ↔ vpn ∉ guardPages m p := by
  constructor
  · rintro ⟨-, hopen⟩ ⟨-, user', huser, hclear⟩
    obtain rfl : user' = user := Option.some.inj (huser.symm.trans h.pagetable)
    exact hopen hclear
  · intro hout
    exact ⟨h.space.mapped vpn hvpn, fun hclear => hout ⟨hvpn, user, h.pagetable, hclear⟩⟩

/-- The pages that the user may use are pages of the process, and no tables. -/
theorem Live.userPages (h : Live L m p frame user kern) (hnull : 0 ∉ owned m p) :
    UserPages m user := by
  have hinside : ∀ vpn, vpn < 2 ^ 26 → Open m user vpn → vpn < pages p.sz := by
    intro vpn hvpn hopen
    by_contra hout
    apply hopen.2
    rw [h.userRest vpn (by omega) hvpn]
    exact userMap_not_user h.frame_lt vpn
  constructor
  · intro vpn hvpn hopen hzero
    apply hnull
    rw [h.owned_eq]
    exact Or.inr (Or.inl (Or.inr ⟨vpn, hinside vpn hvpn hopen, hzero⟩))
  · intro vpn hvpn hopen
    exact h.space.apart vpn (hinside vpn hvpn hopen)

/-- The two ways agree on a range exactly when no guard page is in it. -/
theorem Live.agrees_iff (h : Live L m p frame user kern) (hflags : Flagged m user p.sz)
    (hnull : 0 ∉ owned m p) {srcva len : ℕ} (hend : srcva + len ≤ p.sz) :
    Agrees m p srcva len ↔
      ∀ va, srcva ≤ va → va < srcva + len → va / pgSize ∉ guardPages m p := by
  have hsize := h.size_lt
  have hload : ∀ va, va < srcva + len → loadByte m kern va = some (mappedByte m user va) :=
    fun va hva => h.loadByte_eq hflags (by omega)
  have hopen : ∀ va, va < srcva + len →
      (Open m user (va / 4096) ↔ va / pgSize ∉ guardPages m p) := by
    intro va hva
    refine h.open_iff ?_
    rw [pages]
    omega
  have hlast : p.sz < maxVa := by
    rw [maxVa]
    omega
  rcases copyinLoop_spec (h.userPages hnull) (le_refl len) with ⟨hall, hcopy⟩ | ⟨hsome, hcopy⟩
  · refine iff_of_true ⟨user, kern, _, h.pagetable, h.kPagetable, hcopy, ?_, ?_⟩
      fun va hlo hhi => (hopen va hhi).mp (hall va hlo hhi).2
    · refine iff_of_true rfl fun va _ hhi => ?_
      rw [hload va hhi]
      rfl
    · intro bytes hbytes
      cases hbytes
      rw [readAt, List.map_map]
      apply List.map_congr_left
      intro va hva
      rw [List.mem_range'_1] at hva
      exact (hload va hva.2).symm
  · refine iff_of_false ?_ fun hall => hsome fun va hlo hhi =>
      ⟨by omega, (hopen va hhi).mpr (hall va hlo hhi)⟩
    rintro ⟨user', kern', result, huser, hkern, hresult, hiff, -⟩
    obtain rfl : user' = user := Option.some.inj (huser.symm.trans h.pagetable)
    obtain rfl : kern' = kern := Option.some.inj (hkern.symm.trans h.kPagetable)
    rw [copyin, hcopy] at hresult
    cases hresult
    have hsome := hiff.mpr fun va _ hva => by
      rw [hload va hva]
      rfl
    cases hsome

end Mirror

section Runs

variable {L : Layout} {s₀ s₁ s : Kernel} {i : ℕ}

/-- In every state of a run a process has at most one guard page, and the two ways to its
memory agree on a range of addresses exactly when the guard page is not in it. -/
theorem directAccess_agrees_iff (hboot : Booted L s₀) (hinit : userinit L s₀ = .ok (true, s₁))
    (hrun : Reachable (Call L) s₁ s) (hi : i < L.nproc) (huse : (s.proc i).state ≠ .unused) :
    (guardPages s.machine (s.proc i)).Subsingleton ∧
    ∀ srcva len, srcva + len ≤ (s.proc i).sz →
      (Agrees s.machine (s.proc i) srcva len ↔
        ∀ va, srcva ≤ va → va < srcva + len → va / pgSize ∉ guardPages s.machine (s.proc i)) := by
  have howners := reachable_owners hboot hinit hrun
  obtain ⟨frame, user, kern, hlive, hflags⟩ := howners.live hi huse
  constructor
  · rintro vpn ⟨hvpn, user₁, huser₁, hclear⟩ vpn' ⟨hvpn', user₂, huser₂, hclear'⟩
    obtain rfl : user₁ = user := Option.some.inj (huser₁.symm.trans hlive.pagetable)
    obtain rfl : user₂ = user₁ := Option.some.inj (huser₂.symm.trans hlive.pagetable)
    exact hflags.single vpn vpn' hvpn hvpn' hclear hclear'
  · intro srcva len hend
    exact hlive.agrees_iff hflags (howners.ownsNonnull i hi) hend

theorem directAccess_agrees_iff_guarded : ∃ s₁ s, userinit virt bootedVirt = .ok (true, s₁) ∧
    Reachable (Call virt) s₁ s ∧ (s.proc 0).state ≠ .unused ∧ (s.proc 0).sz = 8192 ∧
    (Agrees s.machine (s.proc 0) 4096 4096 ↔
      ∀ va, 4096 ≤ va → va < 4096 + 4096 → va / pgSize ∉ guardPages s.machine (s.proc 0)) := by
  obtain ⟨s₁, s, root, hinit, hrun, huse, hsz, -, -⟩ := exists_guarded_run
  refine ⟨s₁, s, hinit, hrun, huse, hsz, ?_⟩
  exact (directAccess_agrees_iff bootedVirt_booted hinit hrun (by decide) huse).2 4096 4096
    (by rw [hsz])

theorem directAccess_not_agrees : ¬ ∀ (L : Layout) (s₀ s₁ s : Kernel) (i srcva len : ℕ),
    Booted L s₀ → userinit L s₀ = .ok (true, s₁) → Reachable (Call L) s₁ s → i < L.nproc →
    (s.proc i).state ≠ .unused → srcva + len ≤ (s.proc i).sz →
    Agrees s.machine (s.proc i) srcva len := by
  intro hall
  obtain ⟨s₁, s, root, hinit, hrun, huse, hsz, hroot, hclear⟩ := exists_guarded_run
  have hagrees := hall virt bootedVirt s₁ s 0 0 1 bootedVirt_booted hinit hrun (by decide) huse
    (by rw [hsz]; decide)
  have howners := reachable_owners bootedVirt_booted hinit hrun
  have hproc : 0 < virt.nproc := by decide
  obtain ⟨frame, user, kern, hlive, hflags⟩ := howners.live hproc huse
  rw [hlive.agrees_iff hflags (howners.ownsNonnull 0 hproc) (by rw [hsz]; decide)] at hagrees
  refine hagrees 0 (le_refl 0) (by decide) ⟨?_, root, hroot, hclear⟩
  rw [hsz]
  decide

end Runs

end OperateSystem.Vm

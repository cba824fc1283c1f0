import OperateSystem.Core.Invariant
import OperateSystem.Vm.Arguments
import OperateSystem.Vm.Boot

/-!
# Runs of successful calls

From the first process on, the processes of the table call `exec`, `fork` and `growproc`
in any order.  As long as every call succeeds, all of them keep the mirror relation, and no
two of them share a page.
-/

namespace OperateSystem.Vm

open OperateSystem.PointerTree OperateSystem.Invariant

/-- A call that succeeds, made by a process in use. -/
inductive Call (L : Layout) : Kernel → Kernel → Prop
  | exec {s : Kernel} {i argc : ℕ} {ip : Option Inode} {path : List Char}
      {argv : List (List (BitVec 8))} {p : Proc} {m : Machine} (hi : i < L.nproc)
      (huse : (s.proc i).state ≠ .unused)
      (hcall : exec L s.machine (s.proc i) ip path argv = .ok (some argc, p, m)) :
      Call L s (s.set i p m)
  | fork {s s' : Kernel} {i pid : ℕ} (hi : i < L.nproc) (huse : (s.proc i).state ≠ .unused)
      (hcall : fork L s i = .ok (some pid, s')) : Call L s s'
  | growproc {s : Kernel} {i : ℕ} {n : Int} {p : Proc} {m : Machine} (hi : i < L.nproc)
      (huse : (s.proc i).state ≠ .unused) (hlo : -2 ^ 31 ≤ n) (hhi : n < 2 ^ 31)
      (hcall : growproc L s.machine (s.proc i) n = .ok (true, p, m)) : Call L s (s.set i p m)

section Calls

variable {L : Layout} {s s' : Kernel} {i : ℕ}

theorem Owners.exec (h : Owners L s) (hi : i < L.nproc) (huse : (s.proc i).state ≠ .unused)
    {ip : Option Inode} {path : List Char} {argv : List (List (BitVec 8))} {argc : ℕ} {p : Proc}
    {m : Machine} (hexec : exec L s.machine (s.proc i) ip path argv = .ok (some argc, p, m)) :
    Turn L s (s.set i p m) i := by
  obtain ⟨frame, user, kern, hlive, -⟩ := h.live hi huse
  have hsound := h.sound i hi
  rcases exec_outcome hlive (h.apart_owned hi) h.nonnull ip path argv with ⟨p', m', hfail⟩ |
    ⟨inode, root, sz, sp, m₁, m₂, m₃, m₄, m', -, hstaged, hok, hdone⟩ | ⟨-, e, hpanic⟩
  · rw [hfail] at hexec
    cases hexec
  · rw [hok] at hexec
    cases hexec
    refine Turn.set hi hdone.moves ⟨hsound.kstack, hsound.kstackPa,
      Or.inr ⟨frame, root, kern, hdone.live, ?_⟩⟩ rfl
    have hguard : ∀ vpn, vpn < pages (4096 * (pages sz + 2)) →
        entry m₄.mem root vpn &&& pteU = 0 → vpn = pages sz := by
      intro vpn hvpn hclear
      exact (hstaged.image.guarded vpn hvpn).mp hclear
    have hflags : Flagged m₄ root (4096 * (pages sz + 2)) := by
      refine ⟨hstaged.image.flags, ?_⟩
      intro vpn vpn' hvpn hvpn' hclear hclear'
      rw [hguard vpn hvpn hclear, hguard vpn' hvpn' hclear']
    exact hflags.frame fun page hpage => hdone.keep page (Or.inl hpage)
  · rw [hpanic] at hexec
    cases hexec

theorem Owners.growproc (h : Owners L s) (hi : i < L.nproc) (huse : (s.proc i).state ≠ .unused)
    {n : Int} (hlo : -2 ^ 31 ≤ n) (hhi : n < 2 ^ 31) {p : Proc} {m : Machine}
    (hgrow : growproc L s.machine (s.proc i) n = .ok (true, p, m)) : Turn L s (s.set i p m) i := by
  obtain ⟨frame, user, kern, hlive, hflags⟩ := h.live hi huse
  have hsound := h.sound i hi
  have hapart := h.apart_owned hi
  by_cases hn : n ≤ 0
  · obtain ⟨m', hok, hlive', hmoves, hresized⟩ := growproc_shrink hlive hapart hn hlo
    rw [hok] at hgrow
    cases hgrow
    exact Turn.set hi hmoves ⟨hsound.kstack, hsound.kstackPa,
      Or.inr ⟨frame, user, kern, hlive', hflags.resize hresized⟩⟩ rfl
  · obtain ⟨k, rfl⟩ := Int.eq_ofNat_of_zero_le (show 0 ≤ n by omega)
    rcases growproc_grow hlive hapart (show 0 < k by omega) (by omega) with
      ⟨m', hok, -, hlive', hmoves, hresized, -⟩ | ⟨m', hfail, -⟩ | ⟨m', vpn, hfail, -⟩
    · rw [hok] at hgrow
      cases hgrow
      exact Turn.set hi hmoves ⟨hsound.kstack, hsound.kstackPa,
        Or.inr ⟨frame, user, kern, hlive', hflags.resize hresized⟩⟩ rfl
    · rw [hfail] at hgrow
      cases hgrow
    · rw [hfail] at hgrow
      cases hgrow

/-- A successful call keeps the pages of the processes apart. -/
theorem Owners.call (h : Owners L s) (hcall : Call L s s') : Owners L s' := by
  cases hcall with
  | exec hi huse hcall => exact h.turn (h.exec hi huse hcall)
  | fork hi huse hcall =>
      rcases h.fork hi huse hcall with rfl | ⟨j, ht⟩
      · exact h
      · exact h.turn ht
  | growproc hi huse hlo hhi hcall => exact h.turn (h.growproc hi huse hlo hhi hcall)

/-- In a run of successful calls no two processes come to share a page. -/
theorem reachable_owners {s₀ s₁ : Kernel} (hboot : Booted L s₀)
    (hinit : userinit L s₀ = .ok (true, s₁)) (hrun : Reachable (Call L) s₁ s) : Owners L s :=
  reachable_invariant (Owners L) (hboot.userinit hinit) (fun _ _ h hcall => h.call hcall) hrun

end Calls

/-- The user memory of a process and its mirror, as seen from the two page tables. -/
structure Mirrored (L : Layout) (m : Machine) (p : Proc) (user kern : ℕ) : Prop where
  pagetable : p.pagetable = some user
  kPagetable : p.kPagetable = some kern
  size : p.sz ≤ L.plic * pgSize
  leaf : ∀ vpn, vpn * pgSize < pgRoundUp p.sz →
    (Valid (entry m.mem user vpn) ∧ Leaf (entry m.mem user vpn)) ∧
    (Valid (entry m.mem kern vpn) ∧ Leaf (entry m.mem kern vpn)) ∧
    pte2pa (entry m.mem kern vpn) = pte2pa (entry m.mem user vpn) ∧
    pteFlags (entry m.mem kern vpn) = pteFlags (entry m.mem user vpn) &&& ~~~pteU
  unmapped : ∀ vpn, pgRoundUp p.sz ≤ vpn * pgSize → vpn < L.plic → ¬ Valid (entry m.mem kern vpn)
  rest : ∀ vpn, L.plic ≤ vpn → vpn < maxVa / pgSize →
    entry m.mem kern vpn = kernelMap L p.kstack p.kstackPa vpn

section Mirrored

variable {L : Layout} {m : Machine} {p : Proc} {frame user kern : ℕ} {s₀ s₁ s : Kernel} {i : ℕ}

theorem Live.mirrored (h : Live L m p frame user kern) (hflags : Flagged m user p.sz) :
    Mirrored L m p user kern := by
  have hsize := h.size_lt
  have hpages := h.pages_le
  have hround : pgRoundUp p.sz = pages p.sz * 4096 := pgRoundUp_pages (by omega)
  have hlast : maxVa / pgSize = 2 ^ 26 := by decide
  refine ⟨h.pagetable, h.kPagetable, h.size, ?_, ?_, ?_⟩
  · intro vpn hvpn
    rw [hround, pgSize] at hvpn
    have hlt : vpn < pages p.sz := by omega
    have huser := h.space.mapped vpn hlt
    have hkern := h.kern_valid hlt
    have hpa := pte2pa_lt (entry m.mem user vpn)
    have hword := h.mirror vpn hlt
    rw [mirrorWord_of_flags (hflags.flags vpn hlt)] at hword
    refine ⟨⟨huser, h.space.table.leaf_entry huser⟩, ⟨hkern, h.table.leaf_entry hkern⟩, ?_, ?_⟩
    · rw [hword]
      exact pte2pa_entry hpa (by decide)
    · rw [flags_without_user (hflags.flags vpn hlt), hword]
      exact pteFlags_entry hpa (by decide)
  · intro vpn hvpn hplic
    rw [hround, pgSize] at hvpn
    rw [h.kern_vacant (by omega) hplic]
    exact not_valid_zero
  · intro vpn hplic hvpn
    rw [hlast] at hvpn
    exact h.kernRest vpn (by omega) hvpn

/-- In every state of a run the kernel page table of a process in use mirrors its user
memory, and is otherwise what `allocproc` has made it. -/
theorem reachable_mirrored (hboot : Booted L s₀) (hinit : userinit L s₀ = .ok (true, s₁))
    (hrun : Reachable (Call L) s₁ s) (hi : i < L.nproc) (huse : (s.proc i).state ≠ .unused) :
    ∃ user kern, Mirrored L s.machine (s.proc i) user kern := by
  obtain ⟨frame, user, kern, hlive, hflags⟩ := (reachable_owners hboot hinit hrun).live hi huse
  exact ⟨user, kern, hlive.mirrored hflags⟩

/-- A kernel that has booted, with some pages of its memory free. -/
def bootedVirt : Kernel where
  machine := ⟨fun _ _ => 0, List.range' 0x80100 (2 ^ 13 + 100)⟩
  proc i := { Proc.zero with kstack := virt.kstack i, kstackPa := 0x80080 + i }
  initproc := none
  nextpid := 1
  kernelPagetable := 0x80070

theorem bootedVirt_booted : Booted virt bootedVirt := by
  refine ⟨⟨List.nodup_range', by simp, ?_⟩, ?_, fun i _ => rfl, ?_,
    fun i _ => ⟨rfl, rfl, rfl, rfl, rfl⟩⟩
  · intro page hpage
    have hlt := (List.mem_range'_1.mp hpage).2
    omega
  · intro hmem
    have hle := (List.mem_range'_1.mp hmem).1
    omega
  · intro i hi
    change 0x80080 + i < 2 ^ 52
    change i < 64 at hi
    omega

theorem Moves.free_length_le {A : Set ℕ} {m m' : Machine} (h : Moves ∅ A m m') :
    m'.free.length ≤ m.free.length := by
  apply (List.subperm_of_subset h.nodup ?_).length_le
  intro page hpage
  exact ((h.conserve page).mp (Or.inr hpage)).resolve_left (Set.notMem_empty page)

/-- The first process starts a program without a text: page 0 is its guard page. -/
theorem exists_guarded_run : ∃ s₁ s root, userinit virt bootedVirt = .ok (true, s₁) ∧
    Reachable (Call virt) s₁ s ∧ (s.proc 0).state ≠ .unused ∧ (s.proc 0).sz = 8192 ∧
    (s.proc 0).pagetable = some root ∧ entry s.machine.mem root 0 &&& pteU = 0 := by
  have hfind : unusedEntry virt bootedVirt = some 0 := by decide
  have hlength : bootedVirt.machine.free.length = 2 ^ 13 + 100 := List.length_range'
  have hnproc : 0 < virt.nproc := by decide
  rcases userinit_spec bootedVirt_booted.owners.vacancies with
    ⟨j, np, m', hj, -, hinit, hstate, -, -, -, ⟨frame, user, kern, hlive, -⟩, hmoves, hfree⟩ |
    ⟨-, hnone | hplic | hfew⟩
  · obtain rfl : j = 0 := Option.some.inj (hj.symm.trans hfind)
    have hcost := processCost_lt virt (virt.kstack 0)
    have hle := hmoves.free_length_le
    have htop : 2 ^ 13 + 100 ≤ trapframe := by decide
    obtain ⟨root, sp, m₁, m₂, m₃, m₄, m'', hstaged, hexec, hdone⟩ := exec_bareElf [] hlive
      (hmoves.keeps_apart bootedVirt_booted.free (by simp))
      (hmoves.absent (Set.notMem_empty 0) bootedVirt_booted.nonnull).2 (by omega) (by omega)
      (by decide)
      (by simp) (by decide) (by decide) []
    have hself : (bootedVirt.enter 0 np m').proc 0 = np := Kernel.enter_self
    have huse : ((bootedVirt.enter 0 np m').proc 0).state ≠ .unused := by
      rw [hself, hstate]
      decide
    rw [← hself] at hexec
    have hcall := Call.exec (s := { bootedVirt.enter 0 np m' with initproc := some 0 }) hnproc huse
      hexec
    have hentry : entry m''.mem root 0 = entry m₄.mem root 0 :=
      entry_frame (fun page hpage => hdone.keep page (Or.inl hpage)) 0
    refine ⟨_, _, root, hinit, Relation.ReflTransGen.single hcall, ?_, ?_, ?_, ?_⟩
    · rw [Kernel.set_self]
      exact huse
    · rw [Kernel.set_self]
      rfl
    · rw [Kernel.set_self]
      rfl
    · change entry m''.mem root 0 &&& pteU = 0
      rw [hentry]
      exact (hstaged.image.guarded 0 (by decide)).mpr rfl
  · rw [hfind] at hnone
    cases hnone
  · exact absurd hplic (by decide)
  · omega

theorem reachable_mirrored_guarded : ∃ s₁ s, userinit virt bootedVirt = .ok (true, s₁) ∧
    Reachable (Call virt) s₁ s ∧ (s.proc 0).sz = 8192 ∧
    ∃ user kern, Mirrored virt s.machine (s.proc 0) user kern := by
  obtain ⟨s₁, s, root, hinit, hrun, huse, hsz, -, -⟩ := exists_guarded_run
  exact ⟨s₁, s, hinit, hrun, hsz,
    reachable_mirrored bootedVirt_booted hinit hrun (show 0 < virt.nproc by decide) huse⟩

end Mirrored

end OperateSystem.Vm

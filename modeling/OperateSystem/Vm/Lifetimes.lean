import OperateSystem.Vm.Calls
import OperateSystem.Vm.Census

/-!
# Page ownership over process lifetimes

From boot on, processes are made, run programs, grow, shrink, end and are reaped.  In every
state of such a run each page of memory lies in exactly one place, so `freeproc` gives back
the pages of a process once each and no others.
-/

namespace OperateSystem.Vm

open OperateSystem.PointerTree OperateSystem.Invariant OperateSystem.Ledger

/-- A call in the life of a process.  `exec` and `growproc` succeed, as does `userinit`; `fork`,
`exit` and `wait` end as they may. -/
inductive Lifecycle (L : Layout) : Kernel → Kernel → Prop
  | userinit {s s' : Kernel} (hcall : userinit L s = .ok (true, s')) : Lifecycle L s s'
  | fork {s s' : Kernel} {i : ℕ} {result : Option ℕ} (hi : i < L.nproc)
      (huse : (s.proc i).state ≠ .unused) (hcall : fork L s i = .ok (result, s')) :
      Lifecycle L s s'
  | exec {s : Kernel} {i argc : ℕ} {ip : Option Inode} {path : List Char}
      {argv : List (List (BitVec 8))} {p : Proc} {m : Machine} (hi : i < L.nproc)
      (huse : (s.proc i).state ≠ .unused)
      (hcall : exec L s.machine (s.proc i) ip path argv = .ok (some argc, p, m)) :
      Lifecycle L s (s.set i p m)
  | growproc {s : Kernel} {i : ℕ} {n : Int} {p : Proc} {m : Machine} (hi : i < L.nproc)
      (huse : (s.proc i).state ≠ .unused) (hlo : -2 ^ 31 ≤ n) (hhi : n < 2 ^ 31)
      (hcall : growproc L s.machine (s.proc i) n = .ok (true, p, m)) : Lifecycle L s (s.set i p m)
  | exit {s s' : Kernel} {i : ℕ} {status : BitVec 32} (hi : i < L.nproc)
      (huse : (s.proc i).state ≠ .unused) (hcall : exit s i status = .ok s') : Lifecycle L s s'
  | wait {s s' : Kernel} {i addr : ℕ} {result : Waited} (hi : i < L.nproc)
      (huse : (s.proc i).state ≠ .unused) (hcall : wait L s i addr = .ok (result, s')) :
      Lifecycle L s s'

section Runs

variable {L : Layout} {memory : Set ℕ} {s s' : Kernel} {i : ℕ}

/-- Every call keeps the pages accounted for. -/
theorem Accounted.step (h : Accounted L memory s) (hstep : Lifecycle L s s') :
    Accounted L memory s' := by
  cases hstep with
  | userinit hcall =>
      obtain ⟨j, ht⟩ := h.owners.userinit hcall
      exact h.turn ht
  | fork hi huse hcall =>
      rcases h.owners.fork hi huse hcall with rfl | ⟨j, ht⟩
      · exact h
      · exact h.turn ht
  | exec hi huse hcall => exact h.turn (h.owners.exec hi huse hcall)
  | growproc hi huse hlo hhi hcall => exact h.turn (h.owners.growproc hi huse hlo hhi hcall)
  | exit hi huse hcall => exact h.keep (exit_keeps huse hcall)
  | wait hi huse hcall =>
      rcases h.owners.wait hi huse hcall with hs | ht | ⟨s₁, j, rfl | hfirst, hlast⟩
      · exact h.keep hs
      · exact h.turn ht
      · exact h.turn hlast
      · exact (h.turn hfirst).turn hlast

theorem reachable_accounted {m : Machine} {s₀ : Kernel} (hapart : Apart m ∅) (hnull : 0 ∉ m.free)
    (hboot : boot L m = .ok s₀) (hrun : Reachable (Lifecycle L) s₀ s) :
    Accounted L { page | page ∈ m.free } s := by
  have hstart : Accounted L { page | page ∈ m.free } s₀ := by
    rcases boot_spec (L := L) hapart hnull with ⟨s₀', hok, hstart, -⟩ | ⟨⟨e, herror⟩, -⟩
    · rw [hok] at hboot
      cases hboot
      exact hstart
    · rw [herror] at hboot
      cases hboot
  exact reachable_invariant (Accounted L _) hstart (fun _ _ h hstep => h.step hstep) hrun

end Runs

/-- Where a process can have a page: its trapframe, a table of one of its page tables at the end
of a path from the root, or a leaf of its user memory. -/
inductive Spot
  | trapframe
  | userTable (path : List (Fin 512))
  | kernTable (path : List (Fin 512))
  | user (vpn : ℕ)

/-- The page there. -/
def spotPage (m : Machine) (p : Proc) : Spot → Set ℕ
  | .trapframe => { page | p.trapframe = some page }
  | .userTable path => { page | ∃ user, p.pagetable = some user ∧ path.length ≤ 2 ∧
      node next m.mem user path = some page }
  | .kernTable path => { page | ∃ kern, p.kPagetable = some kern ∧ path.length ≤ 2 ∧
      node next m.mem kern path = some page }
  | .user vpn => { page | vpn * pgSize < pgRoundUp p.sz ∧ ∃ user, p.pagetable = some user ∧
      Valid (entry m.mem user vpn) ∧ Leaf (entry m.mem user vpn) ∧
      pte2pa (entry m.mem user vpn) = page }

/-- Where a page can be: at a position of the free list, a table of the global kernel page table,
a kernel stack, or a spot of a process. -/
inductive Place
  | free (k : ℕ)
  | kernelTable (path : List (Fin 512))
  | stack (i : ℕ)
  | process (i : ℕ) (spot : Spot)

/-- The page there, of which there is at most one. -/
def placePage (L : Layout) (s : Kernel) : Place → Set ℕ
  | .free k => { page | s.machine.free[k]? = some page }
  | .kernelTable path => { page | path.length ≤ 2 ∧
      node next s.machine.mem s.kernelPagetable path = some page }
  | .stack i => { page | i < L.nproc ∧ (s.proc i).kstackPa = page }
  | .process i spot => { page | i < L.nproc ∧ (s.proc i).state ≠ .unused ∧
      page ∈ spotPage s.machine (s.proc i) spot }

/-- `freeproc` of the process gives back every page the process has, each of them once, and no
other page. -/
def FreesOnce (m : Machine) (p : Proc) : Prop :=
  ∃ freed m', freeproc m p = .ok (cleared p, m') ∧ m'.free = freed ++ m.free ∧ freed.Nodup ∧
    ∀ page, page ∈ freed ↔ ∃ spot, page ∈ spotPage m p spot

section Places

variable {L : Layout} {memory : Set ℕ} {s : Kernel} {m : Machine} {p : Proc}
  {frame user kern : ℕ}

theorem Live.of_trapframe (h : Live L m p frame user kern) {page : ℕ}
    (hpage : page ∈ spotPage m p .trapframe) : page = frame :=
  Option.some.inj (hpage.symm.trans h.trapframe)

theorem Live.of_userTable (h : Live L m p frame user kern) {path : List (Fin 512)} {page : ℕ}
    (hpage : page ∈ spotPage m p (.userTable path)) :
    path.length ≤ 2 ∧ node next m.mem user path = some page := by
  obtain ⟨root, hroot, hpath⟩ := hpage
  cases hroot.symm.trans h.pagetable
  exact hpath

theorem Live.of_kernTable (h : Live L m p frame user kern) {path : List (Fin 512)} {page : ℕ}
    (hpage : page ∈ spotPage m p (.kernTable path)) :
    path.length ≤ 2 ∧ node next m.mem kern path = some page := by
  obtain ⟨root, hroot, hpath⟩ := hpage
  cases hroot.symm.trans h.kPagetable
  exact hpath

theorem Live.roundUp (h : Live L m p frame user kern) : pgRoundUp p.sz = pages p.sz * 4096 :=
  pgRoundUp_pages (by have := h.size_lt; omega)

theorem Live.of_user (h : Live L m p frame user kern) {vpn page : ℕ}
    (hpage : page ∈ spotPage m p (.user vpn)) :
    vpn < pages p.sz ∧ pte2pa (entry m.mem user vpn) = page := by
  obtain ⟨hvpn, root, hroot, -, -, heq⟩ := hpage
  cases hroot.symm.trans h.pagetable
  rw [h.roundUp, pgSize] at hvpn
  exact ⟨by omega, heq⟩

/-- The pages of a live process are those in its spots. -/
theorem Live.mem_owned_iff (h : Live L m p frame user kern) (page : ℕ) :
    page ∈ owned m p ↔ ∃ spot, page ∈ spotPage m p spot := by
  rw [h.owned_eq]
  constructor
  · rintro (hpage | (⟨path, hlength, hpath⟩ | ⟨vpn, hvpn, rfl⟩) | ⟨path, hlength, hpath⟩)
    · exact ⟨.trapframe, hpage ▸ h.trapframe⟩
    · exact ⟨.userTable path, user, h.pagetable, hlength, hpath⟩
    · have hvalid := h.space.mapped vpn hvpn
      refine ⟨.user vpn, ?_, user, h.pagetable, hvalid, h.space.table.leaf_entry hvalid, rfl⟩
      rw [Set.mem_Iio] at hvpn
      rw [h.roundUp, pgSize]
      omega
    · exact ⟨.kernTable path, kern, h.kPagetable, hlength, hpath⟩
  · rintro ⟨spot, hpage⟩
    cases spot with
    | trapframe => exact Or.inl (h.of_trapframe hpage)
    | userTable path => exact Or.inr (Or.inl (Or.inl ⟨path, h.of_userTable hpage⟩))
    | kernTable path => exact Or.inr (Or.inr ⟨path, h.of_kernTable hpage⟩)
    | user vpn => exact Or.inr (Or.inl (Or.inr ⟨vpn, h.of_user hpage⟩))

/-- A page of a live process is in one spot only. -/
theorem Live.spot_unique (h : Live L m p frame user kern) {page : ℕ} {spot spot' : Spot}
    (hpage : page ∈ spotPage m p spot) (hpage' : page ∈ spotPage m p spot') : spot = spot' := by
  -- The trapframe is in none of the tables, and the user memory and the two tables are apart.
  have hapart : ∀ {page}, page = frame → page ∉ held m.mem user (Set.Iio (pages p.sz)) ∧
      page ∉ tables m.mem kern := by
    rintro page rfl
    exact not_or.mp h.frame_apart
  cases spot with
  | trapframe =>
      obtain ⟨hheld, htables⟩ := hapart (h.of_trapframe hpage)
      cases spot' with
      | trapframe => rfl
      | userTable path => exact absurd (Or.inl ⟨path, h.of_userTable hpage'⟩) hheld
      | kernTable path => exact absurd ⟨path, h.of_kernTable hpage'⟩ htables
      | user vpn => exact absurd (Or.inr ⟨vpn, h.of_user hpage'⟩) hheld
  | userTable path =>
      obtain ⟨hlength, hpath⟩ := h.of_userTable hpage
      have hheld : page ∈ held m.mem user (Set.Iio (pages p.sz)) :=
        Or.inl ⟨path, hlength, hpath⟩
      cases spot' with
      | trapframe => exact absurd hheld (hapart (h.of_trapframe hpage')).1
      | userTable path' =>
          obtain ⟨hlength', hpath'⟩ := h.of_userTable hpage'
          rw [h.space.table.unshared path path' page hlength hlength' hpath hpath']
      | kernTable path' =>
          exact absurd ⟨path', h.of_kernTable hpage'⟩ (Set.disjoint_left.mp h.disjoint hheld)
      | user vpn =>
          obtain ⟨hvpn, rfl⟩ := h.of_user hpage'
          exact absurd ⟨path, hlength, hpath⟩ (h.space.apart vpn hvpn)
  | kernTable path =>
      obtain ⟨hlength, hpath⟩ := h.of_kernTable hpage
      have hnot : page ∉ held m.mem user (Set.Iio (pages p.sz)) :=
        fun hheld => Set.disjoint_left.mp h.disjoint hheld ⟨path, hlength, hpath⟩
      cases spot' with
      | trapframe => exact absurd ⟨path, hlength, hpath⟩ (hapart (h.of_trapframe hpage')).2
      | userTable path' => exact absurd (Or.inl ⟨path', h.of_userTable hpage'⟩) hnot
      | kernTable path' =>
          obtain ⟨hlength', hpath'⟩ := h.of_kernTable hpage'
          rw [h.table.unshared path path' page hlength hlength' hpath hpath']
      | user vpn => exact absurd (Or.inr ⟨vpn, h.of_user hpage'⟩) hnot
  | user vpn =>
      obtain ⟨hvpn, rfl⟩ := h.of_user hpage
      have hheld : pte2pa (entry m.mem user vpn) ∈ held m.mem user (Set.Iio (pages p.sz)) :=
        Or.inr ⟨vpn, hvpn, rfl⟩
      cases spot' with
      | trapframe => exact absurd hheld (hapart (h.of_trapframe hpage')).1
      | userTable path' => exact absurd ⟨path', h.of_userTable hpage'⟩ (h.space.apart vpn hvpn)
      | kernTable path' =>
          exact absurd ⟨path', h.of_kernTable hpage'⟩ (Set.disjoint_left.mp h.disjoint hheld)
      | user vpn' =>
          obtain ⟨hvpn', heq⟩ := h.of_user hpage'
          rw [h.space.inj vpn hvpn vpn' hvpn' heq.symm]

/-- A live process has each of its pages in one spot. -/
theorem Live.divided (h : Live L m p frame user kern) : Divided (owned m p) (spotPage m p) :=
  ⟨h.mem_owned_iff, fun _ _ _ hpage hpage' => h.spot_unique hpage hpage'⟩

/-- The holder of the page at a place. -/
def holderOf : Place → Holder
  | .free _ => .free
  | .kernelTable _ => .kernel
  | .stack i => .stack i
  | .process i _ => .process i

/-- Pages that are accounted for lie in one place each. -/
theorem Accounted.places (h : Accounted L memory s) : Divided memory (placePage L s) := by
  refine h.divided.refine holderOf ?_ ?_
  · intro holder page
    cases holder with
    | free =>
        constructor
        · intro hmem
          obtain ⟨k, hk⟩ := List.getElem?_of_mem hmem
          exact ⟨.free k, rfl, hk⟩
        · rintro ⟨place, hholder, hpage⟩
          cases place with
          | free k => exact List.mem_of_getElem? hpage
          | _ => cases hholder
    | kernel =>
        constructor
        · rintro ⟨path, hlength, hpath⟩
          exact ⟨.kernelTable path, rfl, hlength, hpath⟩
        · rintro ⟨place, hholder, hpage⟩
          cases place with
          | kernelTable path => exact ⟨path, hpage⟩
          | _ => cases hholder
    | stack i =>
        constructor
        · intro hpage
          exact ⟨.stack i, rfl, hpage⟩
        · rintro ⟨place, hholder, hpage⟩
          cases place with
          | stack j =>
              cases hholder
              exact hpage
          | _ => cases hholder
    | process i =>
        constructor
        · rintro ⟨hi, hpage⟩
          have huse : (s.proc i).state ≠ .unused := by
            intro hunused
            rw [(h.owners.idle hi hunused).owned_eq] at hpage
            exact Set.notMem_empty page hpage
          obtain ⟨frame, user, kern, hlive, -⟩ := h.owners.live hi huse
          obtain ⟨spot, hspot⟩ := (hlive.divided.mem_iff page).mp hpage
          exact ⟨.process i spot, rfl, hi, huse, hspot⟩
        · rintro ⟨place, hholder, hpage⟩
          cases place with
          | process j spot =>
              cases hholder
              obtain ⟨hi, huse, hspot⟩ := hpage
              obtain ⟨frame, user, kern, hlive, -⟩ := h.owners.live hi huse
              exact ⟨hi, (hlive.divided.mem_iff page).mpr ⟨spot, hspot⟩⟩
          | _ => cases hholder
  · intro place place' page hholder hpage hpage'
    cases place with
    | free k =>
        cases place' with
        | free k' =>
            have hk : s.machine.free[k]? = some page := hpage
            have hk' : s.machine.free[k']? = some page := hpage'
            have hlt := (List.getElem?_eq_some_iff.mp hk).1
            rw [(List.getElem?_inj hlt h.owners.free.nodup).mp (hk.trans hk'.symm)]
        | _ => cases hholder
    | kernelTable path =>
        cases place' with
        | kernelTable path' =>
            rw [h.table.unshared path path' page hpage.1 hpage'.1 hpage.2 hpage'.2]
        | _ => cases hholder
    | stack i =>
        cases place' with
        | stack i' =>
            cases hholder
            rfl
        | _ => cases hholder
    | process i spot =>
        cases place' with
        | process i' spot' =>
            cases hholder
            obtain ⟨hi, huse, hspot⟩ := hpage
            obtain ⟨frame, user, kern, hlive, -⟩ := h.owners.live hi huse
            rw [hlive.divided.unique page spot spot' hspot hpage'.2.2]
        | _ => cases hholder

/-- `freeproc` of a process in use gives back what the process has. -/
theorem Accounted.frees (h : Accounted L memory s) {i : ℕ} (hi : i < L.nproc)
    (huse : (s.proc i).state ≠ .unused) : FreesOnce s.machine (s.proc i) := by
  obtain ⟨frame, user, kern, hlive, -⟩ := h.owners.live hi huse
  obtain ⟨m', hfree, hmoves, -⟩ := h.owners.freeproc hi huse
  obtain ⟨freed, heq⟩ := freeproc_pushes hfree
  have hnodup := hmoves.nodup
  rw [← heq, List.nodup_append] at hnodup
  obtain ⟨hfreed, -, hdisjoint⟩ := hnodup
  refine ⟨freed, m', hfree, heq.symm, hfreed, fun page => ?_⟩
  rw [← hlive.divided.mem_iff]
  have hconserve := hmoves.conserve page
  rw [← heq, List.mem_append] at hconserve
  constructor
  · intro hmem
    rcases hconserve.mp (Or.inr (Or.inl hmem)) with howned | hfree'
    · exact howned
    · exact absurd rfl (hdisjoint page hmem page hfree')
  · intro howned
    rcases hconserve.mpr (Or.inl howned) with hnone | hmem | hfree'
    · exact absurd hnone (Set.notMem_empty page)
    · exact hmem
    · exact absurd howned (h.owners.apart i hi page hfree')

/-- In every state of a run every page of memory lies in exactly one place, and `freeproc` of a
process in use gives back every page of the process once and no other page. -/
theorem page_in_one_place {s₀ : Kernel} (hapart : Apart m ∅) (hnull : 0 ∉ m.free)
    (hboot : boot L m = .ok s₀) (hrun : Reachable (Lifecycle L) s₀ s) :
    (∀ page ∈ m.free, ∃! place, page ∈ placePage L s place) ∧
      ∀ i, i < L.nproc → (s.proc i).state ≠ .unused → FreesOnce s.machine (s.proc i) := by
  have haccounted := reachable_accounted hapart hnull hboot hrun
  exact ⟨fun page hpage => haccounted.places.existsUnique hpage,
    fun i hi huse => haccounted.frees hi huse⟩

/-- There are few paths of length one and two. -/
theorem card_short_le {α : Type*} [Fintype α] [DecidableEq α] {paths : Finset (List α)}
    (hshort : ∀ path ∈ paths, (∃ k, path = [k]) ∨ ∃ k l, path = [k, l]) :
    paths.card ≤ Fintype.card α + Fintype.card α * Fintype.card α := by
  have hsub : paths ⊆ (Finset.univ.image fun k : α => [k]) ∪
      Finset.univ.biUnion fun k : α => Finset.univ.image fun l : α => [k, l] := by
    intro path hpath
    rw [Finset.mem_union, Finset.mem_image, Finset.mem_biUnion]
    rcases hshort path hpath with ⟨k, rfl⟩ | ⟨k, l, rfl⟩
    · exact Or.inl ⟨k, Finset.mem_univ _, rfl⟩
    · exact Or.inr ⟨k, Finset.mem_univ _, Finset.mem_image_of_mem _ (Finset.mem_univ _)⟩
  refine (Finset.card_le_card hsub).trans ((Finset.card_union_le _ _).trans ?_)
  exact Nat.add_le_add Finset.card_image_le
    (Finset.card_biUnion_le_card_mul _ _ _ fun k _ => Finset.card_image_le)

theorem card_tablesFor_le (vpns : Finset ℕ) : (tablesFor vpns).card ≤ 2 ^ 9 + 2 ^ 18 := by
  have hcard := card_short_le fun path (hpath : path ∈ tablesFor vpns) => by
    obtain ⟨vpn, -, hpath⟩ := mem_tablesFor.mp hpath
    rw [pathsOf, Finset.mem_insert, Finset.mem_singleton] at hpath
    exact hpath.imp (fun heq => ⟨_, heq⟩) fun heq => ⟨_, _, heq⟩
  rwa [Fintype.card_fin] at hcard

/-- A kernel that boots, makes its first process and has pages left. -/
theorem exists_first_run : ∃ (m : Machine) (s₀ s : Kernel), Apart m ∅ ∧ 0 ∉ m.free ∧
    boot virt m = .ok s₀ ∧ Vm.userinit virt s₀ = .ok (true, s) ∧ (s.proc 0).state = .runnable ∧
    (s.proc 0).sz = pgSize ∧ s.initproc = some 0 ∧
    (∀ i, i < virt.nproc → i ≠ 0 → (s.proc i).state = .unused) ∧
    2 ^ 21 ≤ s.machine.free.length ∧ s.machine.free.length ≤ trapframe := by
  have hcost : bootCost virt ≤ 1 + (2 ^ 9 + 2 ^ 18) + 3 * 64 := by
    have hfew := card_tablesFor_le (rangesVpns (globalRanges virt))
    have hnproc : virt.nproc = 64 := rfl
    rw [bootCost]
    omega
  have htop : 2 ^ 22 ≤ trapframe := by decide
  obtain ⟨m, hapart, hnull, hlength⟩ := exists_free (show 2 ^ 22 < 2 ^ 52 - 1 by decide)
  rcases boot_spec (L := virt) hapart hnull with ⟨s₀, hboot, haccounted, hcount⟩ | ⟨-, hshort⟩
  · have hidle : ∀ i, i < virt.nproc → (s₀.proc i).state = .unused :=
      fun i hi => ((boot_booted hapart hnull hboot).idle i hi).state
    have hfind : unusedEntry virt s₀ = some 0 := by
      have hrange : List.range virt.nproc = 0 :: List.range' 1 63 := by decide
      rw [unusedEntry, hrange, List.find?_cons_of_pos]
      exact decide_eq_true (hidle 0 (by decide))
    have hle : s₀.machine.free.length ≤ 2 ^ 22 := by
      rw [← hlength]
      apply (List.subperm_of_subset haccounted.owners.free.nodup ?_).length_le
      intro page hpage
      exact (haccounted.divided.mem_iff page).mpr ⟨.free, hpage⟩
    rcases userinit_spec haccounted.owners.vacancies with
      ⟨j, np, m', hj, -, hinit, hstate, hsize, -, -, -, hmoves, hfree⟩ |
      ⟨-, hnone | hplic | hfew⟩
    · obtain rfl : j = 0 := Option.some.inj (hj.symm.trans hfind)
      have hused := processCost_lt virt (virt.kstack 0)
      have hmoved := hmoves.free_length_le
      have hself : (s₀.enter 0 np m').proc 0 = np := Kernel.enter_self
      refine ⟨m, s₀, _, hapart, hnull, hboot, hinit, ?_, ?_, rfl, ?_, ?_, ?_⟩
      · change ((s₀.enter 0 np m').proc 0).state = .runnable
        rw [hself, hstate]
      · change ((s₀.enter 0 np m').proc 0).sz = pgSize
        rw [hself, hsize]
      · intro i hi hne
        have hother : (s₀.enter 0 np m').proc i = s₀.proc i := Kernel.enter_of_ne hne
        change ((s₀.enter 0 np m').proc i).state = .unused
        rw [hother]
        exact hidle i hi
      · change 2 ^ 21 ≤ m'.free.length
        omega
      · change m'.free.length ≤ trapframe
        omega
    · rw [hfind] at hnone
      cases hnone
    · exact absurd hplic (by decide)
    · omega
  · omega

/-- A first process that has forked. -/
theorem exists_forked : ∃ (m : Machine) (s₀ s₁ : Kernel) (j : ℕ) (np : Proc) (m' : Machine)
    (user : ℕ), Apart m ∅ ∧ 0 ∉ m.free ∧ boot virt m = .ok s₀ ∧
    Vm.userinit virt s₀ = .ok (true, s₁) ∧
    fork virt s₁ 0 = .ok (some s₁.nextpid, s₁.enter j np m') ∧ j < virt.nproc ∧ j ≠ 0 ∧
    (s₁.proc 0).state = .runnable ∧ (s₁.proc 0).pagetable = some user ∧
    (s₁.proc 0).sz = pgSize ∧ s₁.initproc = some 0 ∧
    (∀ i, i < virt.nproc → i ≠ 0 → (s₁.proc i).state = .unused) ∧
    Forked virt s₁ 0 j m' np user := by
  obtain ⟨m, s₀, s, hapart, hnull, hboot, hinit, hstate, hsize, hinitproc, hunused, hfree, -⟩ :=
    exists_first_run
  have haccounted := reachable_accounted hapart hnull hboot
    (Relation.ReflTransGen.single (Lifecycle.userinit hinit))
  have hzero : 0 < virt.nproc := by decide
  have huse : (s.proc 0).state ≠ .unused := by
    rw [hstate]
    decide
  obtain ⟨frame, user, kern, hlive, -⟩ := haccounted.owners.live hzero huse
  have hneed : ∀ j, processCost virt (virt.kstack j) + childUser (s.proc 0).sz
      + childKern virt (virt.kstack j) (s.proc 0).sz < 2 ^ 21 := by
    intro j
    have hprocess := processCost_lt virt (virt.kstack j)
    have huser := (Finset.card_le_card (Finset.sdiff_subset (s := tablesFor (newVpns 0 pgSize))
      (t := tablesFor topVpns))).trans (card_tablesFor_le _)
    have hkern := (Finset.card_le_card (Finset.sdiff_subset (s := tablesFor (newVpns 0 pgSize))
      (t := tablesFor (kernelVpns virt (virt.kstack j))))).trans (card_tablesFor_le _)
    have hpages : pages pgSize = 1 := by decide
    rw [hsize, childUser, childKern, hpages]
    omega
  rcases fork_spec haccounted.owners.vacancies hlive (haccounted.owners.apart_owned hzero) with
    ⟨hnone, -⟩ | ⟨j, hfind, hj, hidle, ⟨hwhy, -⟩ | ⟨hwhy, -⟩ | ⟨-, np, m', hfork, hforked⟩⟩
  · have hall := List.find?_eq_none.mp hnone 1 (List.mem_range.mpr (by decide))
    simp only [hunused 1 (by decide) Nat.one_ne_zero, decide_true, not_true_eq_false] at hall
  · have hlt := hneed j
    omega
  · have hlt := hneed j
    have hkernel : 1 + kernelCost virt (virt.kstack j) ≤ processCost virt (virt.kstack j) := by
      rw [processCost]
      omega
    omega
  · have hne : j ≠ 0 := by
      rintro rfl
      exact huse hidle.state
    exact ⟨m, s₀, s, j, np, m', user, hapart, hnull, hboot, hinit, hfork, hj, hne, hstate,
      hlive.pagetable, hsize, hinitproc, hunused, hforked⟩

theorem wakeup1_awake {s : Kernel} {i : ℕ} (h : (s.proc i).state ≠ .sleeping) :
    wakeup1 s i = s := if_neg fun hasleep => h hasleep.2

/-- `exit` while neither the parent nor the first process is asleep. -/
theorem exit_awake {s : Kernel} {i parent initproc : ℕ} (hinit : s.initproc = some initproc)
    (hparent : (s.proc i).parent = some parent) (hne : initproc ≠ i) (hself : parent ≠ i)
    (hawake : (s.proc initproc).state ≠ .sleeping) (hawake' : (s.proc parent).state ≠ .sleeping)
    (status : BitVec 32) :
    ∃ s', exit s i status = .ok s' ∧
      s'.proc i = { s.proc i with xstate := status, state := .zombie } ∧
      ∀ k, k ≠ i → (s'.proc k).state = (s.proc k).state := by
  have hstate : ∀ k, ((reparent s i).proc k).state = (s.proc k).state := by
    intro k
    simp only [reparent]
    split <;> rfl
  have hmine : (reparent s i).proc i = s.proc i := by
    simp only [reparent, hparent, Option.some.injEq, if_neg hself]
  have hwoken : wakeup1 (reparent s i) parent = reparent s i :=
    wakeup1_awake (by rwa [hstate])
  refine ⟨(reparent s i).set i
    { (reparent s i).proc i with xstate := status, state := .zombie } s.machine, ?_, ?_, ?_⟩
  · rw [exit, hinit, if_neg (fun heq => hne (Option.some.inj heq)),
      deref_of_eq (show some initproc = some initproc from rfl), ok_bind]
    simp only [wakeup1_awake hawake, deref_of_eq hparent, ok_bind, hwoken]
    rfl
  · rw [Kernel.set_self, hmine]
  · intro k hk
    rw [Kernel.set_of_ne hk]
    exact hstate k

/-- `wait` reaps the only process that has ended. -/
theorem Owners.wait_reaps {L : Layout} {s : Kernel} {i j : ℕ} (h : Owners L s) (hj : j < L.nproc)
    (hparent : (s.proc j).parent = some i) (hzombie : (s.proc j).state = .zombie)
    (honly : ∀ k, k < L.nproc → (s.proc k).state = .zombie → k = j) :
    ∃ m', Vm.wait L s i 0 = .ok (.reaped (s.proc j).pid, s.set j (cleared (s.proc j)) m') := by
  obtain ⟨m', hfree, -⟩ := h.freeproc hj (by rw [hzombie]; decide)
  have hfind : (List.range L.nproc).find? (fun k =>
      decide ((s.proc k).parent = some i ∧ (s.proc k).state = .zombie)) = some j := by
    cases hfound : (List.range L.nproc).find? (fun k =>
        decide ((s.proc k).parent = some i ∧ (s.proc k).state = .zombie)) with
    | none =>
        have hnot := List.find?_eq_none.mp hfound j (List.mem_range.mpr hj)
        exact absurd (decide_eq_true (And.intro hparent hzombie)) hnot
    | some k =>
        have hk := List.mem_range.mp (List.mem_of_find?_eq_some hfound)
        have hboth : (s.proc k).parent = some i ∧ (s.proc k).state = .zombie := by
          simpa using List.find?_some hfound
        rw [honly k hk hboth.2]
  refine ⟨m', ?_⟩
  rw [Vm.wait, hfind]
  simp only [ne_eq, not_true_eq_false, if_false, ok_bind, Bool.true_eq_false, hfree]
  rfl

/-- A first process that has a child, which exits and is reaped. -/
theorem exists_reaped_run : ∃ (m : Machine) (s₀ s₁ s₂ s₃ s : Kernel) (j pid : ℕ), Apart m ∅ ∧
    0 ∉ m.free ∧ boot virt m = .ok s₀ ∧ Vm.userinit virt s₀ = .ok (true, s₁) ∧
    fork virt s₁ 0 = .ok (some pid, s₂) ∧ exit s₂ j 7 = .ok s₃ ∧
    wait virt s₃ 0 0 = .ok (.reaped pid, s) ∧ j < virt.nproc ∧ (s₃.proc j).state = .zombie ∧
    Reachable (Lifecycle virt) s₀ s₃ ∧ Reachable (Lifecycle virt) s₀ s := by
  obtain ⟨m, s₀, s₁, j, np, m', user, hapart, hnull, hboot, hinit, hfork, hj, hne, hstate, -, -,
    hinitproc, hunused, hforked⟩ := exists_forked
  have hzero : 0 < virt.nproc := by decide
  have hfirst : (s₁.enter j np m').proc 0 = s₁.proc 0 := Kernel.enter_of_ne hne.symm
  have hchild : (s₁.enter j np m').proc j = np := Kernel.enter_self
  have hawake : ((s₁.enter j np m').proc 0).state ≠ .sleeping := by
    rw [hfirst, hstate]
    decide
  have hparent : ((s₁.enter j np m').proc j).parent = some 0 := by rw [hchild, hforked.parent]
  obtain ⟨s₃, hexit, hzombie, hothers⟩ := exit_awake
    (show (s₁.enter j np m').initproc = some 0 from hinitproc) hparent
    hne.symm hne.symm hawake hawake 7
  rw [hchild] at hzombie
  have hrun₁ := Relation.ReflTransGen.single (Lifecycle.userinit hinit)
  have hrun₂ := hrun₁.tail (Lifecycle.fork hzero (by rw [hstate]; decide) hfork)
  have hrun₃ := hrun₂.tail (Lifecycle.exit hj (by rw [hchild, hforked.state]; decide) hexit)
  have haccounted := reachable_accounted hapart hnull hboot hrun₃
  obtain ⟨m₄, hwait⟩ := haccounted.owners.wait_reaps (i := 0) hj
    (by rw [hzombie]; exact hforked.parent) (by rw [hzombie]) (by
      intro k hk hended
      by_contra hother
      rw [hothers k hother] at hended
      by_cases hk0 : k = 0
      · rw [hk0, hfirst, hstate] at hended
        cases hended
      · have hsame : (s₁.enter j np m').proc k = s₁.proc k := Kernel.enter_of_ne hother
        rw [hsame, hunused k hk hk0] at hended
        cases hended)
  have hpid : (s₃.proc j).pid = s₁.nextpid := by
    rw [hzombie]
    exact hforked.pid
  rw [hpid] at hwait
  have huse₃ : (s₃.proc 0).state ≠ .unused := by
    rw [hothers 0 hne.symm, hfirst, hstate]
    decide
  exact ⟨m, s₀, s₁, _, s₃, _, j, s₁.nextpid, hapart, hnull, hboot, hinit, hfork, hexit, hwait, hj,
    by rw [hzombie], hrun₃, hrun₃.tail (Lifecycle.wait hzero huse₃ hwait)⟩

theorem page_in_one_place_reaped : ∃ (m : Machine) (s₀ s₁ s₂ s₃ s : Kernel) (j pid : ℕ),
    boot virt m = .ok s₀ ∧ Vm.userinit virt s₀ = .ok (true, s₁) ∧
    fork virt s₁ 0 = .ok (some pid, s₂) ∧ exit s₂ j 7 = .ok s₃ ∧
    wait virt s₃ 0 0 = .ok (.reaped pid, s) ∧
    (∀ page ∈ m.free, ∃! place, page ∈ placePage virt s₃ place) ∧
    FreesOnce s₃.machine (s₃.proc j) ∧
    (∀ page ∈ m.free, ∃! place, page ∈ placePage virt s place) := by
  obtain ⟨m, s₀, s₁, s₂, s₃, s, j, pid, hapart, hnull, hboot, hinit, hfork, hexit, hwait, hj,
    hzombie, hrun₃, hrun⟩ := exists_reaped_run
  obtain ⟨hplaces, hfrees⟩ := page_in_one_place hapart hnull hboot hrun₃
  exact ⟨m, s₀, s₁, s₂, s₃, s, j, pid, hboot, hinit, hfork, hexit, hwait, hplaces,
    hfrees j hj (by rw [hzombie]; decide), (page_in_one_place hapart hnull hboot hrun).1⟩

end Places

end OperateSystem.Vm

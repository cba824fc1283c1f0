import OperateSystem.Vm.Copy
import OperateSystem.Vm.Proc
import OperateSystem.Vm.Ranges
import OperateSystem.Vm.Release

/-!
# The page tables of a new process

The kernel page table that `kvminit_proc` and `allocproc` build, and the user page
table of `proc_pagetable`: what they map and how many pages they take.
-/

namespace OperateSystem.Vm

open OperateSystem.PointerTree

section Holdings

variable {m m' : Machine} {A A' R : Set ℕ}

/-- Moves leave what somebody else holds alone. -/
theorem Moves.extend (h : Moves A A' m m') (haway : Away R A m) :
    Moves (A ∪ R) (A' ∪ R) m m' := by
  obtain ⟨haway', -⟩ := h.away haway
  refine ⟨h.nodup, ?_, ?_, ?_⟩
  · rintro page hpage (hheld | hother)
    · exact h.apart page hpage hheld
    · exact (haway' page hother).2 hpage
  · intro page
    rw [Set.mem_union, Set.mem_union, or_right_comm, h.conserve page, or_right_comm]
  · intro page hheld hfree
    rw [Set.mem_union, not_or] at hheld
    exact h.frame page hheld.1 hfree

theorem Apart.away (h : Apart m (A ∪ R)) (hdisjoint : Disjoint A R) : Away R A m := by
  intro page hpage
  exact ⟨fun hmem => Set.disjoint_left.mp hdisjoint hmem hpage,
    fun hfree => h.apart page hfree (Or.inr hpage)⟩

/-- Pages that are freed stay below the bound of page numbers. -/
theorem Moves.keeps_apart (h : Moves A A' m m') (hapart : Apart m A)
    (hbound : ∀ page ∈ A, page < 2 ^ 52) : Apart m' A' := by
  refine ⟨h.nodup, h.apart, ?_⟩
  intro page hpage
  rcases (h.conserve page).mp (Or.inr hpage) with hheld | hfree
  · exact hbound page hheld
  · exact hapart.bounded page hfree

theorem Moves.kfree {page : ℕ} (hapart : Apart m {page}) : Moves {page} ∅ m (m.kfree page) := by
  refine ⟨?_, by simp, ?_, ?_⟩
  · exact List.nodup_cons.mpr ⟨fun hmem => hapart.apart page hmem rfl, hapart.nodup⟩
  · intro other
    simp [Machine.kfree, Machine.fill]
  · intro other hother _
    exact fill_of_ne _ _ hother

theorem Space.page_lt {root page : ℕ} {S : Set ℕ} (h : Space m.mem root S)
    (hpage : page ∈ held m.mem root S) : page < 2 ^ 52 := by
  rcases mem_held.mp hpage with htable | ⟨vpn, -, rfl⟩
  · exact h.table.page_lt htable
  · exact pte2pa_lt _

end Holdings

section KernelTable

/-- What `kvminit_proc` maps. -/
def kernelRanges (L : Layout) : List Range :=
  [⟨L.uart0, 1, L.uart0, pteR ||| pteW⟩,
   ⟨L.virtio0, 1, L.virtio0, pteR ||| pteW⟩,
   ⟨L.plic, 1024, L.plic, pteR ||| pteW⟩,
   ⟨L.kernbase, L.etext - L.kernbase, L.kernbase, pteR ||| pteX⟩,
   ⟨L.etext, L.phystop - L.etext, L.etext, pteR ||| pteW⟩,
   ⟨trampoline, 1, L.trampolinePa, pteR ||| pteX⟩]

/-- What `allocproc` adds: the kernel stack. -/
def stackRange (kstack kstackPa : ℕ) : Range := ⟨kstack, 1, kstackPa, pteR ||| pteW⟩

/-- The words that `allocproc` installs in the kernel page table of a process. -/
def kernelMap (L : Layout) (kstack kstackPa : ℕ) : ℕ → Word :=
  rangesMap (fun _ => 0) (kernelRanges L ++ [stackRange kstack kstackPa])

/-- The virtual pages of that table. -/
def kernelVpns (L : Layout) (kstack : ℕ) : Finset ℕ :=
  rangesVpns (kernelRanges L) ∪ {kstack}

variable (L : Layout) {m : Machine}

theorem kernelRanges_fit : ∀ r ∈ kernelRanges L, r.Fits := by
  have h₁ := L.plic_le
  have h₂ := L.uart0_lt
  have h₃ := L.virtio0_lt
  have h₄ := L.kernbase_lt
  have h₅ := L.etext_lt
  have h₆ := L.phystop_lt
  have h₇ := L.trampolinePa_lt
  have hrw : Leaf (pteR ||| pteW) := by decide
  have hrx : Leaf (pteR ||| pteX) := by decide
  intro r hr
  simp only [kernelRanges, List.mem_cons, List.not_mem_nil, or_false] at hr
  rcases hr with rfl | rfl | rfl | rfl | rfl | rfl
  all_goals
    refine ⟨?_, ?_, ?_, by first | exact hrw | exact hrx⟩ <;> simp only [trampoline] <;> omega

theorem kernelRanges_disjoint :
    (kernelRanges L).Pairwise fun r r' => Disjoint r.vpns r'.vpns := by
  have h₁ := L.plic_le
  have h₂ := L.uart0_lt
  have h₃ := L.virtio0_lt
  have h₄ := L.kernbase_lt
  have h₅ := L.etext_lt
  have h₆ := L.phystop_lt
  simp only [kernelRanges, List.pairwise_cons, List.mem_cons, List.not_mem_nil, or_false,
    forall_eq_or_imp, forall_eq, false_imp_iff, implies_true, List.Pairwise.nil, and_true,
    Finset.disjoint_left, Range.vpns, Finset.mem_Ico, trampoline]
  refine ⟨⟨?_, ?_, ?_, ?_, ?_⟩, ⟨?_, ?_, ?_, ?_⟩, ⟨?_, ?_, ?_⟩, ⟨?_, ?_⟩, ?_⟩
  all_goals
    intro vpn hvpn
    omega

/-- The ranges lie from `PLIC` up to `PHYSTOP`, and at the trampoline. -/
theorem mem_kernelRanges {vpn : ℕ} (h : vpn ∈ rangesVpns (kernelRanges L)) :
    (L.plic ≤ vpn ∧ vpn < L.phystop) ∨ vpn = trampoline := by
  have h₁ := L.plic_le
  have h₂ := L.uart0_lt
  have h₃ := L.virtio0_lt
  have h₄ := L.kernbase_lt
  have h₅ := L.etext_lt
  obtain ⟨r, hr, hvpn⟩ := mem_rangesVpns.mp h
  simp only [kernelRanges, List.mem_cons, List.not_mem_nil, or_false] at hr
  rcases hr with rfl | rfl | rfl | rfl | rfl | rfl
  all_goals
    simp only [Range.vpns, Finset.mem_Ico] at hvpn
    omega

theorem mem_kernelVpns {kstack vpn : ℕ} (h : vpn ∈ kernelVpns L kstack) :
    (L.plic ≤ vpn ∧ vpn < L.phystop) ∨ vpn = trampoline ∨ vpn = kstack := by
  rcases Finset.mem_union.mp h with hrange | hstack
  · rcases mem_kernelRanges L hrange with hin | htop
    · exact Or.inl hin
    · exact Or.inr (Or.inl htop)
  · exact Or.inr (Or.inr (Finset.mem_singleton.mp hstack))

/-- Below `PLIC` nothing is installed. -/
theorem kernelMap_low {kstack kstackPa vpn : ℕ} (hstack : L.phystop ≤ kstack)
    (hvpn : vpn < L.plic) : kernelMap L kstack kstackPa vpn = 0 := by
  have h₁ := L.plic_le
  have h₂ := L.uart0_lt
  have h₃ := L.virtio0_lt
  have h₄ := L.kernbase_lt
  have h₅ := L.etext_lt
  have h₆ := L.phystop_lt
  apply rangesMap_of_notMem
  intro r hr hmem
  rcases List.mem_append.mp hr with hr | hr
  · rcases mem_kernelRanges L (mem_rangesVpns.mpr ⟨r, hr, hmem⟩) with ⟨hle, -⟩ | htop
    · omega
    · rw [trampoline] at htop
      omega
  · rw [List.mem_singleton] at hr
    subst hr
    simp only [stackRange, Range.vpns, Finset.mem_Ico] at hmem
    omega

theorem map_bind {α β γ : Type} (x : Except Fault α) (g : α → Except Fault β) (f : β → γ) :
    (x >>= g).map f = x >>= fun a => (g a).map f := by
  cases x <;> rfl

theorem kvminitProc_eq {page : ℕ} {free : List ℕ} (hfree : m.free = page :: free) :
    kvminitProc L m
      = (mapRanges "kvmmap_proc" page (take m page free fun _ => 0) (kernelRanges L)).map
        fun m => (page, m) := by
  obtain ⟨m₁, hkalloc, -, hfill, -⟩ := kalloc_cons hfree
  rw [kvminitProc, hkalloc]
  simp only [Machine.zero, hfill, mapRanges, kernelRanges, List.foldlM_cons, List.foldlM_nil,
    kvmmapProc, map_bind]
  rfl

theorem kvminitProc_spec (hapart : Apart m ∅) :
    (∃ kern m', kvminitProc L m = .ok (kern, m') ∧
      Built kern (rangesVpns (kernelRanges L)) (rangesMap (fun _ => 0) (kernelRanges L)) m m') ∨
    (∃ e, kvminitProc L m = .error e ∧
      m.free.length < 1 + (tablesFor (rangesVpns (kernelRanges L))).card) := by
  cases hfree : m.free with
  | nil =>
      refine Or.inr ⟨.null, ?_, by simp⟩
      rw [kvminitProc, kalloc_nil hfree]
      rfl
  | cons kern free =>
      rw [← hfree]
      rcases Built.ranges "kvmmap_proc" hapart hfree (kernelRanges_fit L)
        (kernelRanges_disjoint L) with ⟨m₁, hmap, hbuilt⟩ | ⟨hmap, hcard⟩
      · refine Or.inl ⟨kern, m₁, ?_, hbuilt⟩
        rw [kvminitProc_eq L hfree, hmap]
        rfl
      · refine Or.inr ⟨.panic "kvmmap_proc", ?_, hcard⟩
        rw [kvminitProc_eq L hfree, hmap]
        rfl

/-- The pages that the kernel page table of a process takes. -/
def kernelCost (L : Layout) (kstack : ℕ) : ℕ := 1 + (tablesFor (kernelVpns L kstack)).card

/-- `kvminit_proc` and the mapping of the kernel stack. -/
theorem kernelTable_spec {kstack kstackPa : ℕ} (hapart : Apart m ∅) (hlo : L.phystop ≤ kstack)
    (hhi : kstack < trapframe) (hpa : kstackPa < 2 ^ 52) :
    (∃ kern m₁ m', kvminitProc L m = .ok (kern, m₁) ∧
      kvmmapProc m₁ kern (kstack * pgSize) kstackPa pgSize (pteR ||| pteW) = .ok m' ∧
      Built kern (kernelVpns L kstack) (kernelMap L kstack kstackPa) m m') ∨
    (m.free.length < kernelCost L kstack ∧
      ((∃ e, kvminitProc L m = .error e) ∨
        ∃ kern m₁ e, kvminitProc L m = .ok (kern, m₁) ∧
          kvmmapProc m₁ kern (kstack * pgSize) kstackPa pgSize (pteR ||| pteW) = .error e)) := by
  have hsum := Finset.card_sdiff_add_card (tablesFor {kstack})
    (tablesFor (rangesVpns (kernelRanges L)))
  rw [Finset.union_comm, ← tablesFor_union, ← kernelVpns] at hsum
  have hphystop := L.phystop_lt
  rw [trapframe] at hhi
  rcases kvminitProc_spec L hapart with ⟨kern, m₁, hinit, hbuilt⟩ | ⟨e, hinit, hcard⟩
  · have hfits : (stackRange kstack kstackPa).Fits := by
      refine ⟨Nat.one_pos, ?_, ?_, show Leaf (pteR ||| pteW) by decide⟩
      · simp only [stackRange]
        omega
      · simp only [stackRange]
        omega
    have hvpns : (stackRange kstack kstackPa).vpns = {kstack} := by
      ext vpn
      simp only [stackRange, Range.vpns, Finset.mem_Ico, Finset.mem_singleton]
      omega
    have hvacant : ∀ vpn ∈ (stackRange kstack kstackPa).vpns, ¬ Valid (entry m₁.mem kern vpn) := by
      intro vpn hvpn
      rw [hvpns, Finset.mem_singleton] at hvpn
      subst hvpn
      rw [hbuilt.entry_eq vpn (by omega), rangesMap_of_notMem]
      · exact not_valid_zero
      · intro r hr hmem
        rcases mem_kernelRanges L (mem_rangesVpns.mpr ⟨r, hr, hmem⟩) with ⟨-, hlt⟩ | htop
        · omega
        · rw [trampoline] at htop
          omega
    have hspec := kvmmapInto_spec "kvmmap_proc" (hbuilt.ready hapart) hfits hvacant
    rw [hvpns] at hspec
    simp only [stackRange, Nat.one_mul] at hspec
    rcases hspec with ⟨m', hmap, hedit⟩ | ⟨hmap, hcard⟩
    · refine Or.inl ⟨kern, m₁, m', hinit, hmap, (hbuilt.edit hedit).congr ?_⟩
      intro vpn hvpn
      rw [kernelMap, rangesMap, List.foldl_append]
      simp only [rangeMap, hbuilt.entry_eq vpn hvpn, stackRange]
      rfl
    · rw [hbuilt.missing_eq] at hcard
      have hcount := hbuilt.count
      refine Or.inr ⟨?_, Or.inr ⟨kern, m₁, _, hinit, hmap⟩⟩
      rw [kernelCost]
      omega
  · refine Or.inr ⟨?_, Or.inl ⟨e, hinit⟩⟩
    rw [kernelCost]
    omega

end KernelTable

section UserTable

/-- The words that `proc_pagetable` installs in the user page table. -/
def userMap (L : Layout) (frame : ℕ) : ℕ → Word := fun vpn =>
  if vpn = trapframe then pa2pte frame ||| (pteR ||| pteW) ||| pteV
  else if vpn = trampoline then pa2pte L.trampolinePa ||| (pteR ||| pteX) ||| pteV
  else 0

/-- The virtual pages of the trampoline and the trapframe. -/
def topVpns : Finset ℕ := {trampoline} ∪ {trapframe}

theorem tablesFor_top : tablesFor {trapframe} = tablesFor {trampoline} := by
  decide

variable (L : Layout) {m : Machine} {frame : ℕ}

theorem userMap_low {vpn : ℕ} (h : vpn < trapframe) : userMap L frame vpn = 0 := by
  have hne : vpn ≠ trapframe := by omega
  have hne' : vpn ≠ trampoline := by
    rw [trapframe] at h
    rw [trampoline]
    omega
  rw [userMap, if_neg hne, if_neg hne']

theorem Iio_pages_zero : Set.Iio (pages 0) = ∅ := by
  ext vpn
  simp [pages]

/-- `proc_pagetable`: the table with the trampoline and the trapframe, or every
page is given back. -/
theorem procPagetable_spec (hapart : Apart m ∅) (hframe : frame < 2 ^ 52) :
    (∃ root m', procPagetable L m frame = .ok (some root, m') ∧
      Built root topVpns (userMap L frame) m m') ∨
    (∃ m', procPagetable L m frame = .ok (none, m') ∧ Moves ∅ ∅ m m' ∧
      m.free.length < 1 + (tablesFor topVpns).card) := by
  have htop : (tablesFor topVpns).card = (tablesFor {trampoline}).card := by
    rw [topVpns, tablesFor_union, tablesFor_top, Finset.union_self]
  cases hfree : m.free with
  | nil =>
      refine Or.inr ⟨m, ?_, Moves.refl hapart, by simp⟩
      rw [procPagetable, uvmcreate, kalloc_nil hfree]
      rfl
  | cons root free =>
      have hblank := Built.blank hapart hfree
      have hready := hblank.ready hapart
      obtain ⟨m₀, hkalloc, -, hfill, -⟩ := kalloc_cons hfree
      have hcreate : uvmcreate m = (some root, take m root free fun _ => 0) := by
        rw [uvmcreate, hkalloc]
        simp only [Machine.zero, hfill]
      have hvacant : ¬ Valid (entry (take m root free fun _ => 0).mem root trampoline) := by
        rw [hblank.entry_eq trampoline (by decide)]
        exact not_valid_zero
      have htramp : L.trampolinePa < 2 ^ 52 := by
        have := L.trampolinePa_lt
        have := L.phystop_lt
        omega
      have hmissing := hblank.missing_eq {trampoline}
      have hlength := hblank.count
      rw [show tablesFor ∅ = ∅ from rfl, Finset.sdiff_empty] at hmissing
      rw [show (tablesFor ∅).card = 0 from rfl] at hlength
      rw [← hfree]
      rcases mappages_one hready (by decide) hvacant htramp (show Leaf (pteR ||| pteX) by decide)
        (show trampoline * pgSize = trampoline * 4096 from rfl) with
        ⟨m₁, hmap, hedit, -⟩ | ⟨added, m₁, hmap, -, hedit, hcard⟩
      · have hbuilt := hblank.edit hedit
        rw [Finset.empty_union] at hbuilt
        have hnone : missing m₁.mem root {trapframe} = ∅ := by
          rw [hbuilt.missing_eq, tablesFor_top, Finset.sdiff_self]
        have hne : trapframe ≠ trampoline := by decide
        have hvacant₁ : ¬ Valid (entry m₁.mem root trapframe) := by
          rw [hbuilt.entry_eq trapframe (by decide), Function.update_of_ne hne,
            hblank.entry_eq trapframe (by decide)]
          exact not_valid_zero
        rcases mappages_one (hbuilt.ready hapart) (by decide) hvacant₁ hframe
          (show Leaf (pteR ||| pteW) by decide)
          (show trapframe * pgSize = trapframe * 4096 from rfl) with
          ⟨m', hmap', hedit', -⟩ | ⟨added, m', -, -, -, hcard⟩
        · refine Or.inl ⟨root, m', ?_, (hbuilt.edit hedit').congr ?_⟩
          · rw [procPagetable, hcreate]
            simp only [hmap, ok_bind, Bool.true_eq_false, if_false, hmap']
            rfl
          · intro vpn hvpn
            simp only [Function.update_apply, userMap, hbuilt.entry_eq vpn hvpn,
              hblank.entry_eq vpn hvpn]
        · rw [hnone] at hcard
          simp at hcard
      · rw [hmissing] at hcard
        -- Nothing is mapped yet, so the tables that were added can be freed.
        have hready₁ := hedit.ready hready
        have hspace : Space m₁.mem root (Set.Iio (pages 0)) := by
          rw [Iio_pages_zero]
          exact Space.of_table hedit.table
        have hheld : held m₁.mem root (Set.Iio (pages 0)) = tables m₁.mem root := by
          rw [Iio_pages_zero, held_empty]
        obtain ⟨m', hfreed, hmoves⟩ := uvmfree_spec (by decide) hspace
          (by rw [hheld]; exact hready₁.toApart) (by
            intro vpn _ hvpn
            rw [hedit.entry_eq vpn hvpn, hblank.entry_eq vpn hvpn])
        rw [hheld] at hmoves
        refine Or.inr ⟨m', ?_, (hblank.moves.trans hedit.moves).trans hmoves, by omega⟩
        rw [procPagetable, hcreate]
        simp only [hmap, ok_bind, if_true, hfreed]
        rfl

end UserTable

end OperateSystem.Vm

import OperateSystem.Core.Ledger
import OperateSystem.Vm.Reaping

/-!
# A census of the pages

Every page that was free when the kernel started has exactly one holder: the free list, the
global kernel page table, the kernel stack of an entry of the process table, or a process.
`kvminit` and `procinit` hand the first pages out, and after them a page changes hands only
between the free list and the process whose turn it is.
-/

namespace OperateSystem.Vm

open OperateSystem.PointerTree OperateSystem.Ledger

/-- Who can hold a page. -/
inductive Holder
  | free
  | kernel
  | stack (i : ℕ)
  | process (i : ℕ)

/-- What they hold, where the entries `slots` of the process table have their stacks. -/
def holds (slots : Set ℕ) (s : Kernel) : Holder → Set ℕ
  | .free => { page | page ∈ s.machine.free }
  | .kernel => tables s.machine.mem s.kernelPagetable
  | .stack i => { page | i ∈ slots ∧ (s.proc i).kstackPa = page }
  | .process i => { page | i ∈ slots ∧ page ∈ owned s.machine (s.proc i) }

/-- The pages of `memory` are accounted for. -/
structure Accounted (L : Layout) (memory : Set ℕ) (s : Kernel) : Prop where
  owners : Owners L s
  table : Table s.machine.mem s.kernelPagetable
  divided : Divided memory (holds { i | i < L.nproc } s)

section Turns

variable {L : Layout} {memory : Set ℕ} {s s' : Kernel} {i : ℕ}

/-- A turn of one process leaves the pages of the other holders alone. -/
theorem Accounted.frame (h : Accounted L memory s) (ht : Turn L s s' i) (holder : Holder)
    (hfree : holder ≠ .free) (hother : holder ≠ .process i) {page : ℕ}
    (hpage : page ∈ holds { i | i < L.nproc } s holder) :
    s'.machine.mem page = s.machine.mem page := by
  apply ht.moves.frame
  · intro howned
    exact hother (h.divided.unique page holder (.process i) hpage ⟨ht.slot, howned⟩)
  · intro hmem
    exact hfree (h.divided.unique page holder .free hpage hmem)

theorem Accounted.turn (h : Accounted L memory s) (ht : Turn L s s' i) :
    Accounted L memory s' := by
  have htables : ∀ page ∈ tables s.machine.mem s.kernelPagetable,
      s'.machine.mem page = s.machine.mem page :=
    fun page hpage => h.frame ht .kernel nofun nofun hpage
  refine ⟨h.owners.turn ht, ?_, h.divided.transfer (a := .process i) (b := .free) ?_ ?_ ?_⟩
  · rw [ht.kernelPagetable]
    exact h.table.frame htables
  · intro page
    change (i < L.nproc ∧ page ∈ owned s'.machine (s'.proc i)) ∨ page ∈ s'.machine.free ↔
      (i < L.nproc ∧ page ∈ owned s.machine (s.proc i)) ∨ page ∈ s.machine.free
    rw [and_iff_right ht.slot, and_iff_right ht.slot]
    exact ht.moves.conserve page
  · intro page hfree hpage
    exact ht.moves.apart page hfree hpage.2
  · intro holder hne hfree
    cases holder with
    | free => exact absurd rfl hfree
    | kernel =>
        rw [holds, holds, ht.kernelPagetable]
        exact tables_frame htables
    | stack j =>
        have hstack : (s'.proc j).kstackPa = (s.proc j).kstackPa := by
          by_cases hj : j = i
          · subst hj
            exact ht.kstackPa
          · rw [ht.others j hj]
        rw [holds, holds, hstack]
    | process j =>
        have hj : j ≠ i := by
          rintro rfl
          exact hne rfl
        ext page
        apply and_congr_right
        intro hslot
        rw [(h.owners.beside ht hslot hj).2.1]

theorem Accounted.keep (h : Accounted L memory s) (hs : AllKeep s s') : Accounted L memory s' := by
  refine ⟨h.owners.keep hs, ?_, h.divided.congr ?_⟩
  · rw [hs.machine, hs.kernelPagetable]
    exact h.table
  · intro holder
    cases holder with
    | free => rw [holds, holds, hs.machine]
    | kernel => rw [holds, holds, hs.machine, hs.kernelPagetable]
    | stack i => rw [holds, holds, (hs.proc i).kstackPa]
    | process i => rw [holds, holds, hs.machine, (hs.proc i).owned_eq]

end Turns

section Kernel

variable (L : Layout) {m : Machine}

/-- What `kvminit` maps: the same as `kvminit_proc`, and `CLINT`. -/
def globalRanges : List Range :=
  [⟨L.uart0, 1, L.uart0, pteR ||| pteW⟩,
   ⟨L.virtio0, 1, L.virtio0, pteR ||| pteW⟩,
   ⟨L.clint, 16, L.clint, pteR ||| pteW⟩,
   ⟨L.plic, 1024, L.plic, pteR ||| pteW⟩,
   ⟨L.kernbase, L.etext - L.kernbase, L.kernbase, pteR ||| pteX⟩,
   ⟨L.etext, L.phystop - L.etext, L.etext, pteR ||| pteW⟩,
   ⟨trampoline, 1, L.trampolinePa, pteR ||| pteX⟩]

/-- The range of `CLINT`. -/
def clintRange : Range := ⟨L.clint, 16, L.clint, pteR ||| pteW⟩

theorem globalRanges_perm : (globalRanges L).Perm (clintRange L :: kernelRanges L) :=
  @List.perm_middle _ _ [_, _] _

theorem mem_globalRanges {vpn : ℕ} (h : vpn ∈ rangesVpns (globalRanges L)) :
    (L.clint ≤ vpn ∧ vpn < L.phystop) ∨ vpn = trampoline := by
  have h₀ := L.clint_le
  have h₁ := L.plic_le
  have h₂ := L.uart0_lt
  have h₃ := L.virtio0_lt
  have h₄ := L.kernbase_lt
  have h₅ := L.etext_lt
  obtain ⟨r, hr, hvpn⟩ := mem_rangesVpns.mp h
  rcases List.mem_cons.mp ((globalRanges_perm L).mem_iff.mp hr) with rfl | hr
  · simp only [clintRange, Range.vpns, Finset.mem_Ico] at hvpn
    omega
  · rcases mem_kernelRanges L (mem_rangesVpns.mpr ⟨r, hr, hvpn⟩) with hin | htop
    · omega
    · exact Or.inr htop

theorem globalRanges_fit : ∀ r ∈ globalRanges L, r.Fits := by
  have h₀ := L.clint_le
  have h₁ := L.plic_lt
  have hleaf : Leaf (pteR ||| pteW) := by decide
  intro r hr
  rcases List.mem_cons.mp ((globalRanges_perm L).mem_iff.mp hr) with rfl | hr
  · refine ⟨Nat.succ_pos 15, ?_, ?_, hleaf⟩ <;> simp only [clintRange] <;> omega
  · exact kernelRanges_fit L r hr

theorem globalRanges_disjoint :
    (globalRanges L).Pairwise fun r r' => Disjoint r.vpns r'.vpns := by
  rw [(globalRanges_perm L).pairwise_iff fun h => h.symm, List.pairwise_cons]
  refine ⟨?_, kernelRanges_disjoint L⟩
  intro r hr
  rw [Finset.disjoint_left]
  intro vpn hclint hvpn
  have h₀ := L.clint_le
  have h₁ := L.plic_lt
  simp only [clintRange, Range.vpns, Finset.mem_Ico] at hclint
  rcases mem_kernelRanges L (mem_rangesVpns.mpr ⟨r, hr, hvpn⟩) with hin | htop
  · omega
  · rw [trampoline] at htop
    omega

theorem kvminit_eq {page : ℕ} {free : List ℕ} (hfree : m.free = page :: free) :
    kvminit L m = (mapRanges "kvmmap" page (take m page free fun _ => 0) (globalRanges L)).map
      fun m => (page, m) := by
  obtain ⟨m₁, hkalloc, -, hfill, -⟩ := kalloc_cons hfree
  rw [kvminit, hkalloc]
  simp only [Machine.zero, hfill, mapRanges, globalRanges, List.foldlM_cons, List.foldlM_nil,
    kvmmap, map_bind]
  rfl

/-- `kvminit` builds the global kernel page table, or there are no pages for it. -/
theorem kvminit_spec (hapart : Apart m ∅) :
    (∃ root m', kvminit L m = .ok (root, m') ∧
      Built root (rangesVpns (globalRanges L)) (rangesMap (fun _ => 0) (globalRanges L)) m m') ∨
    (∃ e, kvminit L m = .error e ∧
      m.free.length < 1 + (tablesFor (rangesVpns (globalRanges L))).card) := by
  cases hfree : m.free with
  | nil =>
      refine Or.inr ⟨.null, ?_, by simp⟩
      rw [kvminit, kalloc_nil hfree]
      rfl
  | cons root free =>
      rw [← hfree]
      rcases Built.ranges "kvmmap" hapart hfree (globalRanges_fit L)
        (globalRanges_disjoint L) with ⟨m₁, hmap, hbuilt⟩ | ⟨hmap, hcard⟩
      · refine Or.inl ⟨root, m₁, ?_, hbuilt⟩
        rw [kvminit_eq L hfree, hmap]
        rfl
      · refine Or.inr ⟨.panic "kvmmap", ?_, hcard⟩
        rw [kvminit_eq L hfree, hmap]
        rfl

end Kernel

/-- The kernel within `procinit`: the entries `done` have their kernel stacks. -/
structure Booting (L : Layout) (memory : Set ℕ) (done : Set ℕ) (s : Kernel) : Prop where
  free : Apart s.machine ∅
  table : Table s.machine.mem s.kernelPagetable
  vacant : ∀ i, i < L.nproc → i ∉ done →
    ¬ Valid (entry s.machine.mem s.kernelPagetable (L.kstack i))
  idle : ∀ i, Idle (s.proc i)
  divided : Divided memory (holds done s)

section Boot

variable {L : Layout} {memory done : Set ℕ} {s : Kernel} {i page : ℕ}

/-- The entry gets its kernel stack. -/
def withStack (L : Layout) (s : Kernel) (i page : ℕ) : Proc :=
  { s.proc i with kstackPa := page, kstack := L.kstack i }

theorem Booting.idle_set (h : Booting L memory done s) (m : Machine) (j : ℕ) :
    Idle ((s.set i (withStack L s i page) m).proc j) := by
  by_cases hj : j = i
  · subst hj
    have hidle := h.idle j
    rw [Kernel.set_self]
    exact ⟨hidle.state, hidle.trapframe, hidle.pagetable, hidle.kPagetable, hidle.sz⟩
  · rw [Kernel.set_of_ne hj]
    exact h.idle j

/-- `kalloc` takes the page of a kernel stack. -/
theorem Booting.kalloc (h : Booting L memory done s) (hnot : i ∉ done) {free : List ℕ}
    (hfree : s.machine.free = page :: free) {m₁ : Machine} (hfree₁ : m₁.free = free)
    (hother : ∀ other, other ≠ page → m₁.mem other = s.machine.mem other) :
    Booting L memory (insert i done) (s.set i (withStack L s i page) m₁) := by
  have hnodup := h.free.nodup
  rw [hfree, List.nodup_cons] at hnodup
  have hmem : page ∈ s.machine.free := by simp [hfree]
  have htables : ∀ table ∈ tables s.machine.mem s.kernelPagetable,
      m₁.mem table = s.machine.mem table := by
    intro table htable
    apply hother
    rintro rfl
    cases h.divided.unique table .free .kernel hmem htable
  refine ⟨⟨?_, by simp, ?_⟩, h.table.frame htables, ?_, h.idle_set m₁,
    h.divided.transfer (a := .stack i) (b := .free) ?_ ?_ ?_⟩
  · change m₁.free.Nodup
    rw [hfree₁]
    exact hnodup.2
  · intro other hmem'
    apply h.free.bounded
    change other ∈ m₁.free at hmem'
    rw [hfree₁] at hmem'
    exact hfree ▸ List.mem_cons_of_mem page hmem'
  · intro j hj hout
    change ¬ Valid (entry m₁.mem s.kernelPagetable (L.kstack j))
    rw [entry_frame htables]
    exact h.vacant j hj fun hin => hout (Set.mem_insert_of_mem i hin)
  · intro other
    change (i ∈ insert i done ∧ ((s.set i (withStack L s i page) m₁).proc i).kstackPa = other) ∨
      other ∈ m₁.free ↔ (i ∈ done ∧ (s.proc i).kstackPa = other) ∨ other ∈ s.machine.free
    rw [Kernel.set_self, hfree₁, hfree, List.mem_cons, eq_comm (a := other)]
    simp [hnot, withStack]
  · intro other hmem' hstack
    change other ∈ m₁.free at hmem'
    rw [hfree₁] at hmem'
    have heq : ((s.set i (withStack L s i page) m₁).proc i).kstackPa = other := hstack.2
    rw [Kernel.set_self] at heq
    change page = other at heq
    exact hnodup.1 (heq ▸ hmem')
  · intro holder hne hfree'
    cases holder with
    | free => exact absurd rfl hfree'
    | kernel => exact tables_frame htables
    | stack j =>
        have hj : j ≠ i := by
          rintro rfl
          exact hne rfl
        rw [holds, holds, Kernel.set_of_ne hj]
        simp [hj]
    | process j =>
        ext other
        change (j ∈ insert i done ∧ other ∈ owned m₁ _) ↔ (j ∈ done ∧ other ∈ owned _ _)
        rw [(h.idle_set m₁ j).owned_eq, (h.idle j).owned_eq]
        simp

/-- `kvmmap` maps the page in the global kernel page table. -/
theorem Booting.kvmmap (h : Booting L memory done s) {added : Finset (List (Fin 512))}
    {map : ℕ → Word} {m' : Machine} (hedit : Edit s.kernelPagetable added map s.machine m')
    (hmap : ∀ i, i < L.nproc → i ∉ done → ¬ Valid (map (L.kstack i))) :
    Booting L memory done { s with machine := m' } := by
  refine ⟨⟨hedit.moves.nodup, by simp, ?_⟩, hedit.table, ?_, h.idle,
    h.divided.transfer (a := .kernel) (b := .free) hedit.moves.conserve hedit.moves.apart ?_⟩
  · exact fun page hpage => h.free.bounded page (hedit.free_subset hpage)
  · intro i hi hout
    have hlt := L.kstack_lt i hi
    rw [trapframe] at hlt
    change ¬ Valid (entry m'.mem s.kernelPagetable (L.kstack i))
    rw [hedit.entry_eq _ (by omega)]
    exact hmap i hi hout
  · intro holder hne hfree
    cases holder with
    | free => exact absurd rfl hfree
    | kernel => exact absurd rfl hne
    | stack j => rfl
    | process j =>
        ext other
        change (j ∈ done ∧ other ∈ owned m' (s.proc j)) ↔
          (j ∈ done ∧ other ∈ owned s.machine (s.proc j))
        rw [(h.idle j).owned_eq, (h.idle j).owned_eq]

theorem Booting.ready (h : Booting L memory done s) : Ready s.machine s.kernelPagetable := by
  refine ⟨⟨h.free.nodup, ?_, h.free.bounded⟩, h.table⟩
  intro page hfree htable
  cases h.divided.unique page .free .kernel hfree htable

/-- One turn of the loop of `procinit`, given a page. -/
theorem Booting.turn (h : Booting L memory done s) (hi : i < L.nproc) (hnot : i ∉ done)
    {free : List ℕ} (hfree : s.machine.free = page :: free) :
    ∃ m₁, s.machine.kalloc = (some page, m₁) ∧
      ((∃ m', Vm.kvmmap m₁ s.kernelPagetable (L.kstack i * pgSize) page pgSize (pteR ||| pteW)
          = .ok m' ∧
        Booting L memory (insert i done) (s.set i (withStack L s i page) m') ∧
        s.machine.free.length ≤ m'.free.length + 3) ∨
      (∃ e, Vm.kvmmap m₁ s.kernelPagetable (L.kstack i * pgSize) page pgSize (pteR ||| pteW)
          = .error e) ∧ s.machine.free.length < 3) := by
  obtain ⟨m₁, hkalloc, hfree₁, -, hother⟩ := kalloc_cons hfree
  have h₁ := h.kalloc hnot hfree hfree₁ hother
  have hlo := L.kstack_ge i hi
  have hhi := L.kstack_lt i hi
  have hbound := h.free.bounded page (by simp [hfree])
  rw [trapframe] at hhi
  have hfits : (stackRange (L.kstack i) page).Fits := by
    refine ⟨Nat.one_pos, ?_, ?_, show Leaf (pteR ||| pteW) by decide⟩
    · simp only [stackRange]
      omega
    · simp only [stackRange]
      omega
  have hvpns : (stackRange (L.kstack i) page).vpns = {L.kstack i} := by
    ext vpn
    simp only [stackRange, Range.vpns, Finset.mem_Ico, Finset.mem_singleton]
    omega
  have htables : ∀ table ∈ tables s.machine.mem s.kernelPagetable,
      m₁.mem table = s.machine.mem table := by
    intro table htable
    apply hother
    rintro rfl
    exact h.ready.apart table (by simp [hfree]) htable
  have hvacant : ∀ vpn ∈ (stackRange (L.kstack i) page).vpns,
      ¬ Valid (entry m₁.mem s.kernelPagetable vpn) := by
    intro vpn hvpn
    rw [hvpns, Finset.mem_singleton] at hvpn
    subst hvpn
    rw [entry_frame htables]
    exact h.vacant i hi hnot
  have hlength : s.machine.free.length = m₁.free.length + 1 := by
    rw [hfree, hfree₁, List.length_cons]
  have hcard := card_missing_le_mul m₁.mem s.kernelPagetable {L.kstack i}
  rw [Finset.card_singleton] at hcard
  have hspec :=
    kvmmapInto_spec "kvmmap" (show Ready m₁ s.kernelPagetable from h₁.ready) hfits hvacant
  rw [hvpns] at hspec
  simp only [stackRange, Nat.one_mul] at hspec
  refine ⟨m₁, hkalloc, ?_⟩
  rcases hspec with ⟨m', hmap, hedit⟩ | ⟨hmap, hshort⟩
  · have hcount := hedit.count
    refine Or.inl ⟨m', hmap, h₁.kvmmap hedit ?_, by omega⟩
    intro j hj hout
    have hj' : ¬ (L.kstack i ≤ L.kstack j ∧ L.kstack j < L.kstack i + 1) := by
      rintro ⟨hle, hlt⟩
      have heq := L.kstack_inj j i hj hi (by omega)
      exact hout (heq ▸ Set.mem_insert i done)
    rw [rangeMap, if_neg hj']
    exact h₁.vacant j hj hout
  · exact Or.inr ⟨⟨_, hmap⟩, by omega⟩

/-- `procinit` gives the entries `is` their kernel stacks, or the pages end. -/
theorem Booting.procinit (h : Booting L memory done s) {is : List ℕ} (hnodup : is.Nodup)
    (his : ∀ i ∈ is, i < L.nproc ∧ i ∉ done) :
    (∃ s', Vm.procinit L is s = .ok s' ∧ Booting L memory (done ∪ { i | i ∈ is }) s' ∧
      s.machine.free.length ≤ s'.machine.free.length + 3 * is.length) ∨
    (∃ e, Vm.procinit L is s = .error e) ∧ s.machine.free.length < 3 * is.length := by
  induction is generalizing s done with
  | nil =>
      refine Or.inl ⟨s, rfl, ?_, by simp⟩
      rw [show done ∪ { i | i ∈ [] } = done by simp]
      exact h
  | cons i is ih =>
      obtain ⟨hi, hnot⟩ := his i (by simp)
      obtain ⟨hfirst, hrest⟩ := List.nodup_cons.mp hnodup
      rw [Vm.procinit, List.length_cons]
      cases hfree : s.machine.free with
      | nil =>
          refine Or.inr ⟨⟨.panic "kalloc", ?_⟩, by simp⟩
          rw [kalloc_nil hfree]
          rfl
      | cons page free =>
          obtain ⟨m₁, hkalloc, ⟨m', hmap, h', hcount⟩ | ⟨⟨e, hmap⟩, hshort⟩⟩ := h.turn hi hnot hfree
          · have hlater : ∀ j ∈ is, j < L.nproc ∧ j ∉ insert i done := by
              intro j hj
              obtain ⟨hlt, hout⟩ := his j (List.mem_cons_of_mem i hj)
              refine ⟨hlt, ?_⟩
              rintro (rfl | hmem)
              · exact hfirst hj
              · exact hout hmem
            have hslots : insert i done ∪ { j | j ∈ is } = done ∪ { j | j ∈ i :: is } := by
              ext j
              simp only [Set.mem_union, Set.mem_insert_iff, Set.mem_ofPred_eq, List.mem_cons]
              tauto
            rw [← hfree, hkalloc]
            simp only [hmap, ok_bind]
            rcases ih h' hrest hlater with ⟨s', hloop, hdone, hcount'⟩ | ⟨⟨e, hloop⟩, hshort⟩
            · refine Or.inl ⟨s', hloop, ?_, ?_⟩
              · rw [← hslots]
                exact hdone
              · change m'.free.length ≤ _ at hcount'
                omega
            · refine Or.inr ⟨⟨e, hloop⟩, ?_⟩
              change m'.free.length < _ at hshort
              omega
          · rw [← hfree, hkalloc]
            refine Or.inr ⟨⟨e, ?_⟩, by omega⟩
            simp only [hmap, error_bind]

/-- The tables that `kvminit` builds are the first pages to be handed out. -/
theorem Built.booting {m m' : Machine} {root : ℕ} (hapart : Apart m ∅)
    (h : Built root (rangesVpns (globalRanges L)) (rangesMap (fun _ => 0) (globalRanges L)) m m') :
    Booting L { page | page ∈ m.free } ∅ ⟨m', fun _ => Proc.zero, none, 1, root⟩ := by
  have hidle : Idle Proc.zero := ⟨rfl, rfl, rfl, rfl, rfl⟩
  have hstart : Divided { page | page ∈ m.free } fun holder : Holder =>
      match holder with
      | .free => { page | page ∈ m.free }
      | _ => ∅ := by
    refine Divided.single .free rfl fun other hother => ?_
    cases other with
    | free => exact absurd rfl hother
    | _ => rfl
  refine ⟨(h.ready hapart).toApart.mono (Set.empty_subset _), h.table, ?_, fun _ => hidle,
    hstart.transfer (a := .kernel) (b := .free) h.moves.conserve h.moves.apart ?_⟩
  · intro i hi _
    have hge := L.kstack_ge i hi
    have hlt := L.kstack_lt i hi
    rw [trapframe] at hlt
    change ¬ Valid (entry m'.mem root (L.kstack i))
    rw [h.entry_eq _ (by omega), rangesMap_of_notMem]
    · exact not_valid_zero
    · intro r hr hmem
      rcases mem_globalRanges L (mem_rangesVpns.mpr ⟨r, hr, hmem⟩) with hin | htop
      · omega
      · rw [trampoline] at htop
        omega
  · intro holder hne hfree
    cases holder with
    | free => exact absurd rfl hfree
    | kernel => exact absurd rfl hne
    | stack i => simp [holds]
    | process i => simp [holds]

/-- The pages that the kernel takes before there is any process. -/
def bootCost (L : Layout) : ℕ :=
  1 + (tablesFor (rangesVpns (globalRanges L))).card + 3 * L.nproc

/-- When the kernel has booted, the pages that were free before are accounted for.  It does
boot when there are enough of them. -/
theorem boot_spec {m : Machine} (hapart : Apart m ∅) (hnull : 0 ∉ m.free) :
    (∃ s, boot L m = .ok s ∧ Accounted L { page | page ∈ m.free } s ∧
      m.free.length ≤ s.machine.free.length + bootCost L) ∨
    (∃ e, boot L m = .error e) ∧ m.free.length < bootCost L := by
  rw [bootCost]
  rcases kvminit_spec L hapart with ⟨root, m', hinit, hbuilt⟩ | ⟨e, hinit, hshort⟩
  · have hcount := hbuilt.count
    have hstart := hbuilt.booting hapart
    rcases hstart.procinit (List.nodup_range (n := L.nproc))
      (fun i hi => ⟨List.mem_range.mp hi, Set.notMem_empty i⟩) with
      ⟨s, hloop, hdone, hstacks⟩ | ⟨⟨e, hloop⟩, hshort⟩
    · have hboot : boot L m = .ok s := by
        rw [boot, hinit, ok_bind]
        exact hloop
      have hslots : ∅ ∪ { i | i ∈ List.range L.nproc } = { i | i < L.nproc } := by
        ext i
        simp
      rw [hslots] at hdone
      rw [List.length_range] at hstacks
      change m'.free.length ≤ _ at hstacks
      exact Or.inl ⟨s, hboot, ⟨(boot_booted hapart hnull hboot).owners, hdone.table, hdone.divided⟩,
        by omega⟩
    · rw [List.length_range] at hshort
      change m'.free.length < _ at hshort
      refine Or.inr ⟨⟨e, ?_⟩, by omega⟩
      rw [boot, hinit, ok_bind]
      exact hloop
  · refine Or.inr ⟨⟨e, ?_⟩, by omega⟩
    rw [boot, hinit, error_bind]

end Boot

end OperateSystem.Vm

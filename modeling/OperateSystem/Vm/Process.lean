import OperateSystem.Vm.Templates

/-!
# The memory of a process

A process owns its trapframe, the tables and pages of its user memory and the
tables of its kernel page table.  `Parts` is what `freeproc` relies on, `Live` is
the mirror relation between the two tables; `allocproc` builds the parts of an
empty process and `freeproc` gives all of them back.
-/

namespace OperateSystem.Vm

open OperateSystem.PointerTree

/-- The pages that belong to a process. -/
def owned (m : Machine) (p : Proc) : Set ℕ :=
  { page | p.trapframe = some page } ∪
    ({ page | ∃ user, p.pagetable = some user ∧
        page ∈ held m.mem user (Set.Iio (pages p.sz)) } ∪
      { page | ∃ kern, p.kPagetable = some kern ∧ page ∈ tables m.mem kern })

/-- The entry of the table is not in use and holds nothing. -/
structure Idle (p : Proc) : Prop where
  state : p.state = .unused
  trapframe : p.trapframe = none
  pagetable : p.pagetable = none
  kPagetable : p.kPagetable = none
  sz : p.sz = 0

/-- The pages of a trapframe, of a user memory mapped at `S` and of a kernel page
table. -/
def holding (m : Machine) (frame user kern : ℕ) (S : Set ℕ) : Set ℕ :=
  {frame} ∪ (held m.mem user S ∪ tables m.mem kern)

/-- A trapframe, a user memory and a kernel page table, no two of which share a
page. -/
structure Separate (m : Machine) (frame user kern : ℕ) (S : Set ℕ) : Prop where
  space : Space m.mem user S
  table : Table m.mem kern
  frame_lt : frame < 2 ^ 52
  frame_apart : frame ∉ held m.mem user S ∪ tables m.mem kern
  disjoint : Disjoint (held m.mem user S) (tables m.mem kern)

/-- The three parts of a process. -/
structure Parts (L : Layout) (m : Machine) (p : Proc) (frame user kern : ℕ) : Prop
    extends Separate m frame user kern (Set.Iio (pages p.sz)) where
  trapframe : p.trapframe = some frame
  pagetable : p.pagetable = some user
  kPagetable : p.kPagetable = some kern
  userRest : ∀ vpn, pages p.sz ≤ vpn → vpn < 2 ^ 26 → entry m.mem user vpn = userMap L frame vpn

/-- The mirror relation: user memory is mapped in the kernel page table as well,
and the rest of that table is what `allocproc` has put there. -/
structure Live (L : Layout) (m : Machine) (p : Proc) (frame user kern : ℕ) : Prop
    extends Parts L m p frame user kern where
  state : p.state ≠ .unused
  stack : L.phystop ≤ p.kstack
  size : p.sz ≤ L.plic * 4096
  mirror : ∀ vpn, vpn < pages p.sz → entry m.mem kern vpn = mirrorWord (entry m.mem user vpn)
  kernRest : ∀ vpn, pages p.sz ≤ vpn → vpn < 2 ^ 26 →
    entry m.mem kern vpn = kernelMap L p.kstack p.kstackPa vpn

section Separate

variable {m m' : Machine} {frame user kern : ℕ} {S S' : Set ℕ}

theorem Separate.page_lt (h : Separate m frame user kern S) {page : ℕ}
    (hpage : page ∈ holding m frame user kern S) : page < 2 ^ 52 := by
  rcases hpage with rfl | hpage | hpage
  · exact h.frame_lt
  · exact h.space.page_lt hpage
  · exact h.table.page_lt hpage

/-- A change of the user memory leaves the other parts alone. -/
theorem Separate.change_user (h : Separate m frame user kern S)
    (hapart : Apart m (holding m frame user kern S)) (hspace : Space m'.mem user S')
    (hmoves : Moves (held m.mem user S) (held m'.mem user S') m m') :
    Separate m' frame user kern S' ∧
      Moves (holding m frame user kern S) (holding m' frame user kern S') m m' ∧
      (∀ page ∈ tables m.mem kern, m'.mem page = m.mem page) ∧ m'.mem frame = m.mem frame := by
  have haway : Away ({frame} ∪ tables m.mem kern) (held m.mem user S) m := by
    rintro page (rfl | hpage)
    · exact ⟨fun hmem => h.frame_apart (Or.inl hmem), fun hfree => hapart.apart page hfree
        (Or.inl rfl)⟩
    · exact ⟨fun hmem => Set.disjoint_left.mp h.disjoint hmem hpage,
        fun hfree => hapart.apart page hfree (Or.inr (Or.inr hpage))⟩
  obtain ⟨haway', hframe⟩ := hmoves.away haway
  have hkern : ∀ page ∈ tables m.mem kern, m'.mem page = m.mem page :=
    fun page hpage => hframe page (Or.inr hpage)
  have hextend := hmoves.extend haway
  rw [Set.union_left_comm, Set.union_left_comm (held m'.mem user S')] at hextend
  refine ⟨⟨hspace, h.table.frame hkern, h.frame_lt, ?_, ?_⟩, ?_, hkern, hframe frame (Or.inl rfl)⟩
  · rw [tables_frame hkern]
    rintro (hmem | hmem)
    · exact (haway' frame (Or.inl rfl)).1 hmem
    · exact h.frame_apart (Or.inr hmem)
  · rw [tables_frame hkern, Set.disjoint_left]
    intro page hmem hmem'
    exact (haway' page (Or.inr hmem')).1 hmem
  · rw [holding, holding, tables_frame hkern]
    exact hextend

/-- A change of the kernel page table leaves the other parts alone. -/
theorem Separate.change_kern (h : Separate m frame user kern S)
    (hapart : Apart m (holding m frame user kern S)) (htable : Table m'.mem kern)
    (hmoves : Moves (tables m.mem kern) (tables m'.mem kern) m m') :
    Separate m' frame user kern S ∧
      Moves (holding m frame user kern S) (holding m' frame user kern S) m m' ∧
      (∀ page ∈ held m.mem user S, m'.mem page = m.mem page) ∧ m'.mem frame = m.mem frame := by
  have haway : Away ({frame} ∪ held m.mem user S) (tables m.mem kern) m := by
    rintro page (rfl | hpage)
    · exact ⟨fun hmem => h.frame_apart (Or.inr hmem), fun hfree => hapart.apart page hfree
        (Or.inl rfl)⟩
    · exact ⟨fun hmem => Set.disjoint_left.mp h.disjoint hpage hmem,
        fun hfree => hapart.apart page hfree (Or.inr (Or.inl hpage))⟩
  obtain ⟨haway', hframe⟩ := hmoves.away haway
  have huser : ∀ page ∈ held m.mem user S, m'.mem page = m.mem page :=
    fun page hpage => hframe page (Or.inr hpage)
  have htables : ∀ page ∈ tables m.mem user, m'.mem page = m.mem page :=
    fun page hpage => huser page (Or.inl hpage)
  have hextend := hmoves.extend haway
  rw [Set.union_comm, Set.union_assoc, Set.union_comm (tables m'.mem kern), Set.union_assoc]
    at hextend
  refine ⟨⟨h.space.frame htables, htable, h.frame_lt, ?_, ?_⟩, ?_, huser,
    hframe frame (Or.inl rfl)⟩
  · rw [held_frame htables]
    rintro (hmem | hmem)
    · exact h.frame_apart (Or.inl hmem)
    · exact (haway' frame (Or.inl rfl)).1 hmem
  · rw [held_frame htables, Set.disjoint_left]
    intro page hmem hmem'
    exact (haway' page (Or.inr hmem)).1 hmem'
  · rw [holding, holding, held_frame htables]
    exact hextend

end Separate

section Parts

variable {L : Layout} {m m' : Machine} {p : Proc} {frame user kern : ℕ}

theorem Idle.owned_eq (h : Idle p) : owned m p = ∅ := by
  simp [owned, h.trapframe, h.pagetable, h.kPagetable]

theorem Parts.owned_eq (h : Parts L m p frame user kern) :
    owned m p = holding m frame user kern (Set.Iio (pages p.sz)) := by
  rw [owned, h.trapframe, h.pagetable, h.kPagetable]
  ext page
  simp [holding, eq_comm]

/-- The parts do not depend on what happens away from the tables. -/
theorem Parts.stable (h : Parts L m p frame user kern)
    (hframe : ∀ page ∈ tables m.mem user ∪ tables m.mem kern, m'.mem page = m.mem page) :
    Parts L m' p frame user kern := by
  have huser : ∀ page ∈ tables m.mem user, m'.mem page = m.mem page :=
    fun page hpage => hframe page (Or.inl hpage)
  have hkern : ∀ page ∈ tables m.mem kern, m'.mem page = m.mem page :=
    fun page hpage => hframe page (Or.inr hpage)
  refine ⟨⟨h.space.frame huser, h.table.frame hkern, h.frame_lt, ?_, ?_⟩, h.trapframe, h.pagetable,
    h.kPagetable, ?_⟩
  · rw [held_frame huser, tables_frame hkern]
    exact h.frame_apart
  · rw [held_frame huser, tables_frame hkern]
    exact h.disjoint
  · intro vpn hlo hhi
    rw [entry_frame huser]
    exact h.userRest vpn hlo hhi

theorem Live.stable (h : Live L m p frame user kern)
    (hframe : ∀ page ∈ tables m.mem user ∪ tables m.mem kern, m'.mem page = m.mem page) :
    Live L m' p frame user kern := by
  have huser := entry_frame fun page hpage => hframe page (Or.inl hpage)
  have hkern := entry_frame fun page hpage => hframe page (Or.inr hpage)
  refine ⟨h.toParts.stable hframe, h.state, h.stack, h.size, ?_, ?_⟩
  · intro vpn hvpn
    rw [huser, hkern]
    exact h.mirror vpn hvpn
  · intro vpn hlo hhi
    rw [hkern]
    exact h.kernRest vpn hlo hhi

/-- The pages that belong to a process depend on its tables only. -/
theorem Parts.owned_frame (h : Parts L m p frame user kern)
    (hframe : ∀ page ∈ tables m.mem user ∪ tables m.mem kern, m'.mem page = m.mem page) :
    owned m' p = owned m p := by
  rw [(h.stable hframe).owned_eq, h.owned_eq, holding, holding,
    held_frame fun page hpage => hframe page (Or.inl hpage),
    tables_frame fun page hpage => hframe page (Or.inr hpage)]

theorem Parts.tables_subset (h : Parts L m p frame user kern) :
    tables m.mem user ∪ tables m.mem kern ⊆ owned m p := by
  rw [h.owned_eq]
  rintro page (hpage | hpage)
  · exact Or.inr (Or.inl (Or.inl hpage))
  · exact Or.inr (Or.inr hpage)

/-- `proc_freeuserpagetable` gives back the tables and the pages below the size. -/
theorem procFreeuserpagetable_spec {sz : ℕ} (hsz : pages sz ≤ trapframe) (hsmall : sz < 2 ^ 63)
    (hspace : Space m.mem user (Set.Iio (pages sz)))
    (hapart : Apart m (held m.mem user (Set.Iio (pages sz))))
    (hrest : ∀ vpn, pages sz ≤ vpn → vpn < 2 ^ 26 →
      entry m.mem user vpn = userMap L frame vpn) :
    ∃ m', procFreeuserpagetable m user sz = .ok m' ∧
      Moves (held m.mem user (Set.Iio (pages sz))) ∅ m m' := by
  have htop : trampoline = trapframe + 1 := by decide
  have hlast : trapframe < 2 ^ 26 ∧ trampoline < 2 ^ 26 := by decide
  have hready := hspace.ready hapart
  have hvalid : ∀ vpn, trapframe ≤ vpn → vpn < 2 ^ 26 → Valid (userMap L frame vpn) := by
    intro vpn hlo hhi
    rw [userMap]
    by_cases hframe : vpn = trapframe
    · rw [if_pos hframe]
      exact valid_entry _ _
    · have heq : vpn = trampoline := by
        rw [trapframe] at hlo hframe
        rw [trampoline]
        omega
      rw [if_neg hframe, if_pos heq]
      exact valid_entry _ _
  obtain ⟨m₁, hunmap₁, -, hedit₁⟩ := uvmunmap_keep (n := 1)
    (show trampoline * pgSize = trampoline * 4096 from rfl) hready (by omega) (by
      intro vpn hlo hhi
      rw [hrest vpn (by omega) (by omega)]
      exact hvalid vpn (by omega) (by omega))
  obtain ⟨m₂, hunmap₂, -, hedit₂⟩ := uvmunmap_keep (n := 1)
    (show trapframe * pgSize = trapframe * 4096 from rfl) (hedit₁.ready hready) (by omega) (by
      intro vpn hlo hhi
      rw [hedit₁.entry_eq vpn (by omega), clearMap, if_neg (by omega),
        hrest vpn (by omega) (by omega)]
      exact hvalid vpn (by omega) (by omega))
  have hchange₁ := hedit₁.change hspace hapart (by
    intro vpn hvpn
    rw [Set.mem_Iio] at hvpn
    rw [clearMap, if_neg (by omega)])
  have hapart₁ := hchange₁.apart hapart
  have hchange₂ := hedit₂.change hchange₁.space hapart₁ (by
    intro vpn hvpn
    rw [Set.mem_Iio] at hvpn
    rw [clearMap, if_neg (by omega)])
  obtain ⟨m', hfree, hmoves⟩ := uvmfree_spec hsmall hchange₂.space (hchange₂.apart hapart₁) (by
    intro vpn hlo hhi
    rw [hedit₂.entry_eq vpn hhi, clearMap]
    by_cases hframe : vpn = trapframe
    · rw [if_pos (by omega)]
    · rw [if_neg (by omega), hedit₁.entry_eq vpn hhi, clearMap]
      by_cases htramp : vpn = trampoline
      · rw [if_pos (by omega)]
      · rw [if_neg (by omega), hrest vpn hlo hhi, userMap, if_neg hframe, if_neg htramp])
  refine ⟨m', ?_, (hchange₁.moves.trans hchange₂.moves).trans hmoves⟩
  rw [procFreeuserpagetable, hunmap₁, ok_bind, hunmap₂, ok_bind, hfree]

/-- The entry that `freeproc` leaves behind. -/
def cleared (p : Proc) : Proc :=
  { p with
    trapframe := none, pagetable := none, kPagetable := none, sz := 0, pid := 0, parent := none,
    name := [], chan := none, killed := false, xstate := 0, state := .unused }

theorem cleared_idle (p : Proc) : Idle (cleared p) := ⟨rfl, rfl, rfl, rfl, rfl⟩

/-- `freeproc` gives back every page of the process, each of them once. -/
theorem freeproc_spec (h : Parts L m p frame user kern) (hsz : pages p.sz ≤ trapframe)
    (hapart : Apart m (owned m p)) :
    ∃ m', freeproc m p = .ok (cleared p, m') ∧ Moves (owned m p) ∅ m m' := by
  have hsmall : p.sz < 2 ^ 63 := by
    rw [trapframe, pages] at hsz
    omega
  rw [h.owned_eq, holding] at hapart ⊢
  -- First the trapframe.
  have hdisjoint₁ : Disjoint {frame} (held m.mem user (Set.Iio (pages p.sz)) ∪ tables m.mem kern) :=
    Set.disjoint_singleton_left.mpr h.frame_apart
  have hmoves₁ : Moves {frame} ∅ m (m.kfree frame) :=
    Moves.kfree (hapart.mono Set.subset_union_left)
  have haway₁ := hapart.away hdisjoint₁
  have hextend₁ := hmoves₁.extend haway₁
  obtain ⟨-, hframe₁⟩ := hmoves₁.away haway₁
  have hparts₁ : Parts L (m.kfree frame) p frame user kern := by
    apply h.stable
    rintro page (hpage | hpage)
    · exact hframe₁ page (Or.inl (Or.inl hpage))
    · exact hframe₁ page (Or.inr hpage)
  have huser₁ : held (m.kfree frame).mem user (Set.Iio (pages p.sz))
      = held m.mem user (Set.Iio (pages p.sz)) :=
    held_frame fun page hpage => hframe₁ page (Or.inl (Or.inl hpage))
  have hkern₁ : tables (m.kfree frame).mem kern = tables m.mem kern :=
    tables_frame fun page hpage => hframe₁ page (Or.inr hpage)
  rw [Set.empty_union] at hextend₁
  have hapart₁ : Apart (m.kfree frame)
      (held m.mem user (Set.Iio (pages p.sz)) ∪ tables m.mem kern) := by
    apply hextend₁.keeps_apart hapart
    exact fun page hpage => h.page_lt hpage
  -- Then the user memory.
  have hapartUser := hapart₁.mono Set.subset_union_left
  rw [← huser₁] at hapartUser
  obtain ⟨m₂, hfreeUser, hmoves₂⟩ := procFreeuserpagetable_spec hsz hsmall hparts₁.space hapartUser
    hparts₁.userRest
  rw [huser₁] at hmoves₂
  have haway₂ := hapart₁.away h.disjoint
  have hextend₂ := hmoves₂.extend haway₂
  obtain ⟨-, hframe₂⟩ := hmoves₂.away haway₂
  rw [Set.empty_union] at hextend₂
  have hapart₂ : Apart m₂ (tables m.mem kern) := by
    apply hextend₂.keeps_apart hapart₁
    rintro page (hpage | hpage)
    · exact h.space.page_lt hpage
    · exact h.table.page_lt hpage
  have hkern₂ : ∀ page ∈ tables m.mem kern, m₂.mem page = m.mem page := by
    intro page hpage
    rw [hframe₂ page hpage, hframe₁ page (Or.inr hpage)]
  -- And the kernel page table last.
  have hready₂ : Ready m₂ kern := by
    refine ⟨?_, h.table.frame hkern₂⟩
    rw [tables_frame hkern₂]
    exact hapart₂
  obtain ⟨m', hfreeKern, hmoves₃⟩ := kvmfree_spec hready₂
  rw [tables_frame hkern₂] at hmoves₃
  refine ⟨m', ?_, (hextend₁.trans hextend₂).trans hmoves₃⟩
  rw [freeproc, h.trapframe, h.pagetable, h.kPagetable]
  simp only [hfreeUser, ok_bind, procFreekernelpagetable, hfreeKern]
  rfl

end Parts

/-- The parts of a new process, as `allocproc` leaves them. -/
structure Fresh (L : Layout) (m m' : Machine) (p : Proc) (frame user kern : ℕ) : Prop
    extends Parts L m' p frame user kern where
  moves : Moves ∅ (owned m' p) m m'
  count : m.free.length
    = m'.free.length + (1 + kernelCost L p.kstack + (1 + (tablesFor topVpns).card))
  empty : p.sz = 0
  userMissing : ∀ vpns, missing m'.mem user vpns = tablesFor vpns \ tablesFor topVpns
  kernMissing : ∀ vpns, missing m'.mem kern vpns
    = tablesFor vpns \ tablesFor (kernelVpns L p.kstack)
  kernEntry : ∀ vpn, vpn < 2 ^ 26 →
    entry m'.mem kern vpn = kernelMap L p.kstack p.kstackPa vpn

section Allocproc

variable {L : Layout} {m : Machine} {p : Proc}

/-- The pages a process takes before it has any user memory. -/
def processCost (L : Layout) (kstack : ℕ) : ℕ :=
  1 + kernelCost L kstack + (1 + (tablesFor topVpns).card)

theorem Moves.kalloc {m₁ : Machine} {page : ℕ} {free : List ℕ} (hapart : Apart m ∅)
    (hfree : m.free = page :: free) (hfree₁ : m₁.free = free)
    (hother : ∀ other, other ≠ page → m₁.mem other = m.mem other) : Moves ∅ {page} m m₁ := by
  have hnodup := hapart.nodup
  rw [hfree, List.nodup_cons] at hnodup
  refine ⟨by rw [hfree₁]; exact hnodup.2, ?_, ?_, ?_⟩
  · rintro other hpage rfl
    rw [hfree₁] at hpage
    exact hnodup.1 hpage
  · intro other
    rw [hfree₁, hfree, List.mem_cons]
    simp
  · intro other _ hpage
    apply hother
    rintro rfl
    exact hpage (by simp [hfree])

/-- A kernel page table made while a process already holds its trapframe. -/
theorem Built.beside {m₁ m₂ : Machine} {frame kern : ℕ} {vpns : Finset ℕ} {map : ℕ → Word}
    (h : Built kern vpns map m₁ m₂) (hapart : Apart m₁ {frame}) (hframe : frame < 2 ^ 52) :
    Moves {frame} ({frame} ∪ tables m₂.mem kern) m₁ m₂ ∧
      Apart m₂ ({frame} ∪ tables m₂.mem kern) ∧ frame ∉ tables m₂.mem kern := by
  have haway : Away {frame} ∅ m₁ := by
    rintro page rfl
    exact ⟨Set.notMem_empty page, fun hmem => hapart.apart page hmem rfl⟩
  have hmoves := h.moves.extend haway
  rw [Set.empty_union, Set.union_comm] at hmoves
  refine ⟨hmoves, hmoves.keeps_apart hapart ?_, ((h.moves.away haway).1 frame rfl).1⟩
  rintro page rfl
  exact hframe

theorem Apart.away_all {R : Set ℕ} (h : Apart m R) : Away R ∅ m := fun page hpage =>
  ⟨Set.notMem_empty page, fun hfree => h.apart page hfree hpage⟩

/-- The trapframe and the kernel page table of a process without a user table are given
back. -/
theorem kvmfree_kfree {frame kern : ℕ} (htable : Table m.mem kern) (hframe : frame < 2 ^ 52)
    (hapart : Apart m ({frame} ∪ tables m.mem kern)) (hnot : frame ∉ tables m.mem kern) :
    ∃ m', kvmfree (m.kfree frame) kern = .ok m' ∧
      Moves ({frame} ∪ tables m.mem kern) ∅ m m' := by
  have haway : Away (tables m.mem kern) {frame} m :=
    hapart.away (Set.disjoint_singleton_left.mpr hnot)
  have hmoves : Moves {frame} ∅ m (m.kfree frame) :=
    Moves.kfree (hapart.mono Set.subset_union_left)
  obtain ⟨-, hkern⟩ := hmoves.away haway
  have hmoves' := hmoves.extend haway
  rw [Set.empty_union] at hmoves'
  have hbounds : ∀ page ∈ {frame} ∪ tables m.mem kern, page < 2 ^ 52 := by
    rintro page (rfl | hpage)
    · exact hframe
    · exact htable.page_lt hpage
  have hready : Ready (m.kfree frame) kern := by
    refine ⟨?_, htable.frame hkern⟩
    rw [tables_frame hkern]
    exact hmoves'.keeps_apart hapart hbounds
  obtain ⟨m', hfreed, hreleased⟩ := kvmfree_spec hready
  rw [tables_frame hkern] at hreleased
  exact ⟨m', hfreed, hmoves'.trans hreleased⟩

/-- The parts that `allocproc` makes one after the other are the parts of a new process. -/
theorem Fresh.of_built {m₁ m₂ m' : Machine} {frame user kern : ℕ} (hidle : Idle p) (pid : ℕ)
    (hframe : frame < 2 ^ 52) (hapart₁ : Apart m₁ {frame}) (hmoves : Moves ∅ {frame} m m₁)
    (hlength : m.free.length = m₁.free.length + 1)
    (hkern : Built kern (kernelVpns L p.kstack) (kernelMap L p.kstack p.kstackPa) m₁ m₂)
    (huser : Built user topVpns (userMap L frame) m₂ m') :
    Fresh L m m' { p with
      pid := pid, trapframe := some frame, kPagetable := some kern,
      pagetable := some user } frame user kern := by
  obtain ⟨hmoves₂, hapart₂, hnot⟩ := hkern.beside hapart₁ hframe
  obtain ⟨haway, hframe'⟩ := huser.moves.away hapart₂.away_all
  have hsame : ∀ page ∈ tables m₂.mem kern, m'.mem page = m₂.mem page :=
    fun page hpage => hframe' page (Or.inr hpage)
  have hmoves' := huser.moves.extend hapart₂.away_all
  rw [Set.empty_union] at hmoves'
  have hcount := hkern.count
  have hcount' := huser.count
  have hcost : kernelCost L p.kstack = 1 + (tablesFor (kernelVpns L p.kstack)).card := rfl
  have hzero : Set.Iio (pages p.sz) = ∅ := by rw [hidle.sz, Iio_pages_zero]
  have hheld : held m'.mem user (Set.Iio (pages p.sz)) = tables m'.mem user := by
    rw [hzero, held_empty]
  have hparts : Parts L m' { p with
      pid := pid, trapframe := some frame, kPagetable := some kern,
      pagetable := some user } frame user kern := by
    refine ⟨⟨?_, hkern.table.frame hsame, hframe, ?_, ?_⟩, rfl, rfl, rfl,
      fun vpn _ hvpn => huser.entry_eq vpn hvpn⟩
    · change Space m'.mem user (Set.Iio (pages p.sz))
      rw [hzero]
      exact Space.of_table huser.table
    · change frame ∉ held m'.mem user (Set.Iio (pages p.sz)) ∪ tables m'.mem kern
      rw [hheld, tables_frame hsame]
      rintro (hmem | hmem)
      · exact (haway frame (Or.inl rfl)).1 hmem
      · exact hnot hmem
    · change Disjoint (held m'.mem user (Set.Iio (pages p.sz))) (tables m'.mem kern)
      rw [hheld, tables_frame hsame, Set.disjoint_left]
      intro page hmem hmem'
      exact (haway page (Or.inr hmem')).1 hmem
  refine ⟨hparts, ?_, ?_, hidle.sz, huser.missing_eq, ?_, ?_⟩
  · rw [hparts.owned_eq, holding]
    change Moves ∅ ({frame} ∪ (held m'.mem user (Set.Iio (pages p.sz)) ∪ _)) m m'
    rw [hheld, tables_frame hsame, Set.union_left_comm]
    exact (hmoves.trans hmoves₂).trans hmoves'
  · change m.free.length = m'.free.length
      + (1 + kernelCost L p.kstack + (1 + (tablesFor topVpns).card))
    omega
  · intro vpns
    rw [← hkern.missing_eq]
    exact missing_frame hsame vpns
  · intro vpn hvpn
    rw [entry_frame hsame]
    exact hkern.entry_eq vpn hvpn

/-- What `allocproc` makes of a free entry depends on the number of free pages: it
fails when there are none, brings the kernel down when they end within the kernel
page table, and gives everything back when they end within the user table. -/
theorem allocprocFound_spec (hapart : Apart m ∅) (hidle : Idle p) (hlo : L.phystop ≤ p.kstack)
    (hhi : p.kstack < Vm.trapframe) (hpa : p.kstackPa < 2 ^ 52) (pid : ℕ) :
    (m.free.length = 0 ∧ allocprocFound L m p pid = .ok (false, { p with pid := pid }, m)) ∨
    (0 < m.free.length ∧ m.free.length < 1 + kernelCost L p.kstack ∧
      ∃ e, allocprocFound L m p pid = .error e) ∨
    (1 + kernelCost L p.kstack ≤ m.free.length ∧ m.free.length < processCost L p.kstack ∧
      ∃ m' frame kern, allocprocFound L m p pid = .ok (false, cleared { p with
        pid := pid, trapframe := some frame, kPagetable := some kern }, m') ∧ Moves ∅ ∅ m m') ∨
    (∃ m' frame user kern, allocprocFound L m p pid = .ok (true, { p with
        pid := pid, trapframe := some frame, kPagetable := some kern,
        pagetable := some user }, m') ∧
      Fresh L m m' { p with
        pid := pid, trapframe := some frame, kPagetable := some kern,
        pagetable := some user } frame user kern) := by
  cases hfree : m.free with
  | nil =>
      refine Or.inl ⟨rfl, ?_⟩
      rw [allocprocFound, kalloc_nil hfree]
      simp only [← hidle.trapframe]
      rfl
  | cons frame free =>
      obtain ⟨m₁, hkalloc, hfree₁, -, hother⟩ := kalloc_cons hfree
      have hmoves₁ := Moves.kalloc hapart hfree hfree₁ hother
      have hbound : frame < 2 ^ 52 := hapart.bounded frame (by simp [hfree])
      have hapart₁ := hmoves₁.keeps_apart hapart (by simp)
      have hlength₁ : m.free.length = m₁.free.length + 1 := by rw [hfree, hfree₁, List.length_cons]
      rw [← hfree]
      rcases kernelTable_spec L (hapart₁.mono (Set.empty_subset _)) hlo hhi hpa with
        ⟨kern, m₂, m₃, hinit, hmap, hbuilt⟩ | ⟨hshort, hfault⟩
      · obtain ⟨hmoves₃, hapart₃, hnot⟩ := hbuilt.beside hapart₁ hbound
        have hcount := hbuilt.count
        have hcost : kernelCost L p.kstack = 1 + (tablesFor (kernelVpns L p.kstack)).card := rfl
        rcases procPagetable_spec L (hapart₃.mono (Set.empty_subset _)) hbound with
          ⟨user, m₄, htable, hbuilt'⟩ | ⟨m₄, htable, hmoves₄, hshort⟩
        · refine Or.inr (Or.inr (Or.inr ⟨m₄, frame, user, kern, ?_,
            Fresh.of_built hidle pid hbound hapart₁ hmoves₁ hlength₁ hbuilt hbuilt'⟩))
          rw [allocprocFound, hkalloc]
          simp only [hinit, ok_bind, hmap, htable, reduceCtorEq, if_false]
          rfl
        · -- The trapframe and the kernel page table are given back.
          have hmoves₄' := hmoves₄.extend hapart₃.away_all
          rw [Set.empty_union] at hmoves₄'
          obtain ⟨-, hframe₄⟩ := hmoves₄.away hapart₃.away_all
          have hkern : ∀ page ∈ tables m₃.mem kern, m₄.mem page = m₃.mem page :=
            fun page hpage => hframe₄ page (Or.inr hpage)
          have hapart₄ : Apart m₄ ({frame} ∪ tables m₄.mem kern) := by
            rw [tables_frame hkern]
            refine hmoves₄'.keeps_apart hapart₃ ?_
            rintro page (rfl | hpage)
            · exact hbound
            · exact hbuilt.table.page_lt hpage
          obtain ⟨m', hfreed, hmoves₅⟩ := kvmfree_kfree (hbuilt.table.frame hkern) hbound
            hapart₄ (by rw [tables_frame hkern]; exact hnot)
          rw [tables_frame hkern] at hmoves₅
          refine Or.inr (Or.inr (Or.inl ⟨by omega, ?_, m', frame, kern, ?_,
            ((hmoves₁.trans hmoves₃).trans hmoves₄').trans hmoves₅⟩))
          · rw [processCost]
            omega
          · rw [allocprocFound, hkalloc]
            simp only [hinit, ok_bind, hmap, htable, if_true, freeproc, procFreekernelpagetable,
              hfreed]
            rw [cleared, hidle.pagetable]
            rfl
      · refine Or.inr (Or.inl ⟨by omega, by omega, ?_⟩)
        rcases hfault with ⟨e, hinit⟩ | ⟨kern, m₂, e, hinit, hmap⟩
        · refine ⟨e, ?_⟩
          rw [allocprocFound, hkalloc]
          simp only [hinit]
          rfl
        · refine ⟨e, ?_⟩
          rw [allocprocFound, hkalloc]
          simp only [hinit, ok_bind, hmap]
          rfl

/-- A process that `allocproc` has just made, once it is runnable, is live. -/
theorem Fresh.live {m' : Machine} {frame user kern : ℕ} {state : ProcState}
    (h : Fresh L m m' p frame user kern) (hstack : L.phystop ≤ p.kstack)
    (hstate : state ≠ .unused) :
    Live L m' { p with state := state } frame user kern := by
  have hnone : pages p.sz = 0 := by rw [h.empty, pages]
  refine ⟨⟨h.toSeparate, h.trapframe, h.pagetable, h.kPagetable, h.userRest⟩, hstate, hstack,
    ?_, ?_,
    ?_⟩
  · change p.sz ≤ L.plic * 4096
    rw [h.empty]
    exact Nat.zero_le _
  · intro vpn hvpn
    change vpn < pages p.sz at hvpn
    omega
  · intro vpn _ hvpn
    exact h.kernEntry vpn hvpn

/-- Virtual pages that share their last table need the same tables. -/
theorem tablesFor_blocks (vpns : Finset ℕ) :
    tablesFor (vpns.image fun vpn => 512 * (vpn / 512)) = tablesFor vpns := by
  rw [tablesFor, tablesFor, Finset.image_biUnion]
  apply Finset.biUnion_congr rfl
  intro vpn _
  have hone : idx 1 (512 * (vpn / 512)) = idx 1 vpn := by
    simp only [idx, Fin.mk.injEq]
    omega
  have htwo : idx 2 (512 * (vpn / 512)) = idx 2 vpn := by
    simp only [idx, Fin.mk.injEq]
    omega
  rw [pathsOf, pathsOf, hone, htwo]

/-- The tables of the kernel are few. -/
theorem processCost_lt (L : Layout) (kstack : ℕ) : processCost L kstack < 2 ^ 13 := by
  have hsub : (kernelVpns L kstack).image (fun vpn => 512 * (vpn / 512))
      ⊆ (Finset.range (2 ^ 11)).image (512 * ·) ∪
        {512 * (trampoline / 512), 512 * (kstack / 512)} := by
    have hphystop := L.phystop_lt
    intro block hblock
    obtain ⟨vpn, hvpn, rfl⟩ := Finset.mem_image.mp hblock
    simp only [Finset.mem_union, Finset.mem_image, Finset.mem_range, Finset.mem_insert,
      Finset.mem_singleton]
    have hcases := mem_kernelVpns L hvpn
    by_cases hlow : vpn < 2 ^ 20
    · exact Or.inl ⟨vpn / 512, by omega, rfl⟩
    · obtain rfl | rfl : vpn = trampoline ∨ vpn = kstack := by omega
      · exact Or.inr (Or.inl rfl)
      · exact Or.inr (Or.inr rfl)
  have hcard : ((kernelVpns L kstack).image fun vpn => 512 * (vpn / 512)).card ≤ 2 ^ 11 + 2 := by
    refine (Finset.card_le_card hsub).trans ((Finset.card_union_le _ _).trans ?_)
    refine Nat.add_le_add (Finset.card_image_le.trans ?_) Finset.card_le_two
    rw [Finset.card_range]
  have hkern : (tablesFor (kernelVpns L kstack)).card
      ≤ ((kernelVpns L kstack).image fun vpn => 512 * (vpn / 512)).card * 2 := by
    rw [← tablesFor_blocks]
    exact card_paths_le _
  have htop : (tablesFor topVpns).card = 2 := by decide
  rw [processCost, kernelCost, htop]
  omega

theorem exists_free {count : ℕ} (hcount : count < 2 ^ 52 - 1) :
    ∃ m : Machine, Apart m ∅ ∧ 0 ∉ m.free ∧ m.free.length = count := by
  refine ⟨⟨fun _ _ => 0, List.range' 1 count⟩, ⟨List.nodup_range', by simp, ?_⟩,
    by simp, List.length_range'⟩
  intro page hpage
  have hlt := (List.mem_range'_1.mp hpage).2
  omega

/-- There are live processes without memory beside any number of free pages. -/
theorem exists_fresh (L : Layout) (hproc : 0 < L.nproc) {extra : ℕ} (hextra : extra < 2 ^ 51) :
    ∃ (m₀ m : Machine) (p : Proc) (frame user kern : ℕ), Fresh L m₀ m p frame user kern ∧
      p.kstack = L.kstack 0 ∧ Apart m (owned m p) ∧ 0 ∉ m.free ∧ m.free.length = extra := by
  have hlo := L.kstack_ge 0 hproc
  have hhi := L.kstack_lt 0 hproc
  have hcost := processCost_lt L (L.kstack 0)
  have hparts : processCost L (L.kstack 0)
      = 1 + kernelCost L (L.kstack 0) + (1 + (tablesFor topVpns).card) := rfl
  obtain ⟨m₀, hapart, hnull, hlength⟩ := exists_free
    (show processCost L (L.kstack 0) + extra < 2 ^ 52 - 1 by omega)
  obtain ⟨p, hp, hidle, hpa⟩ : ∃ p : Proc, p.kstack = L.kstack 0 ∧ Idle p ∧ p.kstackPa < 2 ^ 52 :=
    ⟨{ Proc.zero with kstack := L.kstack 0 }, rfl, ⟨rfl, rfl, rfl, rfl, rfl⟩,
      show 0 < 2 ^ 52 by decide⟩
  rw [← hp] at hlo hhi hlength hparts
  rcases allocprocFound_spec hapart hidle hlo hhi hpa 0 with
    ⟨hnone, -⟩ | ⟨-, hshort, -⟩ | ⟨-, hshort, -⟩ | ⟨m', frame, user, kern, -, hfresh⟩
  · omega
  · omega
  · omega
  · have hcount := hfresh.count
    simp only at hcount
    exact ⟨m₀, m', _, frame, user, kern, hfresh, hp,
      hfresh.moves.keeps_apart hapart (by simp),
      (hfresh.moves.absent (Set.notMem_empty 0) hnull).2, by omega⟩

end Allocproc

end OperateSystem.Vm

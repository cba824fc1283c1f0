import OperateSystem.Vm.Process

/-!
# Growing and shrinking a process

`growproc` changes two page tables one after the other.  Shrinking never fails.
Growing takes pages for the user memory first and mirrors them then; when the
second step fails nothing of the first is undone, and `kvmcopy` has unmapped the
whole mirror on top of that.
-/

namespace OperateSystem.Vm

open OperateSystem.PointerTree

section Live

variable {L : Layout} {m : Machine} {p : Proc} {frame user kern : ℕ}

theorem Layout.plic_lt (L : Layout) : L.plic < 2 ^ 19 := by
  have h₁ := L.plic_le
  have h₂ := L.uart0_lt
  have h₃ := L.virtio0_lt
  have h₄ := L.kernbase_le
  omega

theorem Live.size_lt (h : Live L m p frame user kern) : p.sz < 2 ^ 31 := by
  have hsize := h.size
  have hplic := L.plic_lt
  omega

theorem Live.pages_le (h : Live L m p frame user kern) : pages p.sz ≤ L.plic := by
  have hsize := h.size
  rw [pages]
  omega

theorem Live.kern_valid (h : Live L m p frame user kern) {vpn : ℕ} (hvpn : vpn < pages p.sz) :
    Valid (entry m.mem kern vpn) := by
  rw [h.mirror vpn hvpn]
  exact valid_entry _ _

theorem Live.user_vacant (h : Live L m p frame user kern) {vpn : ℕ} (hlo : pages p.sz ≤ vpn)
    (hhi : vpn < trapframe) : entry m.mem user vpn = 0 := by
  have hlast : trapframe < 2 ^ 26 := by decide
  rw [h.userRest vpn hlo (by omega), userMap_low L hhi]

theorem Live.kern_vacant (h : Live L m p frame user kern) {vpn : ℕ} (hlo : pages p.sz ≤ vpn)
    (hhi : vpn < L.plic) : entry m.mem kern vpn = 0 := by
  have hplic := L.plic_lt
  rw [h.kernRest vpn hlo (by omega), kernelMap_low L h.stack hhi]

theorem deref_of_eq {pointer : Option ℕ} {page : ℕ} (h : pointer = some page) :
    deref pointer = .ok page := by
  rw [h]
  rfl

theorem u32_of_lt {x : ℕ} (h : x < 2 ^ 32) : u32 x = x := by
  rw [u32]
  omega

end Live

/-- The user memory after a resize from `sz` to `newsz`: a page is one of the old pages, or
a new one with the flags of `uvmalloc`. -/
def Resized (user : ℕ) (m m' : Machine) (sz newsz : ℕ) : Prop :=
  ∀ vpn, vpn < pages newsz →
    (vpn < pages sz ∧ entry m'.mem user vpn = entry m.mem user vpn) ∨
      pteFlags (entry m'.mem user vpn) = userPerm ||| pteV

section Shrink

variable {L : Layout} {m : Machine} {p : Proc} {frame user kern : ℕ}

theorem Resized.refl (user : ℕ) (m : Machine) (sz : ℕ) : Resized user m m sz sz :=
  fun _ hvpn => Or.inl ⟨hvpn, rfl⟩

/-- The two tables are cut back to `newsz`. -/
theorem shrink_spec (h : Live L m p frame user kern) (hapart : Apart m (owned m p)) {newsz : ℕ}
    (hle : newsz ≤ p.sz) :
    ∃ m₁ m₂, uvmdealloc m user p.sz newsz = .ok (newsz, m₁) ∧
      kvmdealloc m₁ kern p.sz newsz = .ok (newsz, m₂) ∧
      Live L m₂ { p with sz := newsz } frame user kern ∧
      Moves (owned m p) (owned m₂ { p with sz := newsz }) m m₂ ∧
      Resized user m m₂ p.sz newsz := by
  have hsize := h.size_lt
  have hpages := pages_mono hle
  have hplic := h.pages_le
  have hbound := L.plic_lt
  rw [h.owned_eq] at hapart
  have hapartUser : Apart m (held m.mem user (Set.Iio (pages p.sz))) :=
    hapart.mono (Set.subset_union_left.trans Set.subset_union_right)
  obtain ⟨m₁, huser, -, hchange⟩ := uvmdealloc_spec h.space hapartUser
    (show p.sz < 2 ^ 63 by omega)
    (show ∀ vpn, pages newsz ≤ vpn → vpn < pages p.sz → vpn ∈ Set.Iio (pages p.sz) from
      fun vpn _ hvpn => hvpn)
  rw [Iio_sdiff_Ico hpages] at hchange
  obtain ⟨hsep₁, hmoves₁, hkern₁, -⟩ := h.change_user hapart hchange.space hchange.moves
  have hapart₁ := hmoves₁.keeps_apart hapart fun page hpage => h.page_lt hpage
  have hentry₁ := entry_frame hkern₁
  have hready : Ready m₁ kern := by
    refine ⟨hapart₁.mono ?_, hsep₁.table⟩
    exact Set.subset_union_right.trans Set.subset_union_right
  obtain ⟨m₂, hkern, -, hedit⟩ := kvmdealloc_spec hready (show p.sz < 2 ^ 37 by omega)
    (show newsz < 2 ^ 37 by omega) (by
      intro vpn _ hvpn
      rw [hentry₁]
      exact h.kern_valid hvpn)
  rw [Nat.min_eq_right hle] at huser hkern
  obtain ⟨hsep₂, hmoves₂, huser₂, -⟩ := hsep₁.change_kern hapart₁ hedit.table hedit.moves
  have hentry₂ : ∀ vpn, entry m₂.mem user vpn = entry m₁.mem user vpn :=
    entry_frame fun page hpage => huser₂ page (Or.inl hpage)
  have huserMap : ∀ vpn, vpn < 2 ^ 26 → entry m₂.mem user vpn
      = clearMap (entry m.mem user) (pages newsz) (pages p.sz - pages newsz) vpn := by
    intro vpn hvpn
    rw [hentry₂, hchange.entry_eq vpn hvpn]
  have hkernMap : ∀ vpn, vpn < 2 ^ 26 → entry m₂.mem kern vpn
      = clearMap (entry m.mem kern) (pages newsz) (pages p.sz - pages newsz) vpn := by
    intro vpn hvpn
    rw [hedit.entry_eq vpn hvpn]
    simp only [clearMap, hentry₁]
  have hlive : Live L m₂ { p with sz := newsz } frame user kern := by
    refine ⟨⟨hsep₂, h.trapframe, h.pagetable, h.kPagetable, ?_⟩, h.state, h.stack,
      hle.trans h.size, ?_, ?_⟩
    · intro vpn hlo hhi
      rw [huserMap vpn hhi, clearMap]
      by_cases hin : vpn < pages p.sz
      · rw [if_pos ⟨hlo, by omega⟩, userMap_low L (by rw [Vm.trapframe]; omega)]
      · rw [if_neg (by omega)]
        exact h.userRest vpn (by omega) hhi
    · intro vpn hvpn
      change vpn < pages newsz at hvpn
      rw [huserMap vpn (by omega), hkernMap vpn (by omega), clearMap, clearMap, if_neg (by omega),
        if_neg (by omega)]
      exact h.mirror vpn (by omega)
    · intro vpn hlo hhi
      rw [hkernMap vpn hhi, clearMap]
      by_cases hin : vpn < pages p.sz
      · rw [if_pos ⟨hlo, by omega⟩]
        exact (kernelMap_low L h.stack (by omega)).symm
      · rw [if_neg (by omega)]
        exact h.kernRest vpn (by omega) hhi
  refine ⟨m₁, m₂, huser, hkern, hlive, ?_, ?_⟩
  · rw [hlive.owned_eq, h.owned_eq]
    exact hmoves₁.trans hmoves₂
  · intro vpn hvpn
    refine Or.inl ⟨by omega, ?_⟩
    rw [huserMap vpn (by omega), clearMap, if_neg (by omega)]

/-- The size that `growproc` is asked for: unchanged when the sum is negative. -/
def resized (sz : ℕ) (n : Int) : ℕ := if sz + n < 0 then sz else (sz + n).toNat

/-- `growproc(n)` for an `n` that is not positive. -/
theorem growproc_shrink (h : Live L m p frame user kern) (hapart : Apart m (owned m p)) {n : Int}
    (hn : n ≤ 0) (hlo : -2 ^ 31 ≤ n) :
    ∃ m', growproc L m p n = .ok (true, { p with sz := resized p.sz n }, m') ∧
      Live L m' { p with sz := resized p.sz n } frame user kern ∧
      Moves (owned m p) (owned m' { p with sz := resized p.sz n }) m m' ∧
      Resized user m m' p.sz (resized p.sz n) := by
  have hsize := h.size_lt
  have hsz := u32_of_lt (show p.sz < 2 ^ 32 by omega)
  by_cases hzero : n = 0
  · subst hzero
    have hresized : resized p.sz 0 = p.sz := by
      rw [resized, if_neg (by omega), Int.add_zero]
      rfl
    rw [hresized]
    refine ⟨m, ?_, h, Moves.refl hapart, Resized.refl user m p.sz⟩
    rw [growproc, deref_of_eq h.pagetable, deref_of_eq h.kPagetable]
    simp only [ok_bind, lt_irrefl, if_false, hsz]
    rfl
  · have hneg : ¬ 0 < n := by omega
    have hneg' : n < 0 := by omega
    by_cases hsum : (p.sz : Int) + n < 0
    · -- Both sums wrap around to a size that is larger than the old one.
      have hwrap : p.sz ≤ u32 (p.sz + n) := by
        rw [u32]
        omega
      have hwrap' : p.sz ≤ u64 (p.sz + n) := by
        rw [u64]
        omega
      have hresized : resized p.sz n = p.sz := by
        rw [resized, if_pos hsum]
      rw [hresized]
      refine ⟨m, ?_, h, Moves.refl hapart, Resized.refl user m p.sz⟩
      rw [growproc, deref_of_eq h.pagetable, deref_of_eq h.kPagetable]
      simp only [ok_bind, if_neg hneg, if_pos hneg', hsz, uvmdealloc, kvmdealloc,
        dealloc_of_le _ hwrap, dealloc_of_le _ hwrap']
      rfl
    · obtain ⟨newsz, hnewsz⟩ := Int.eq_ofNat_of_zero_le (show 0 ≤ (p.sz : Int) + n by omega)
      have hle : newsz ≤ p.sz := by omega
      have hresized : resized p.sz n = newsz := by
        rw [resized, if_neg hsum, hnewsz]
        rfl
      obtain ⟨m₁, m₂, huser, hkern, hlive, hmoves, hkept⟩ := shrink_spec h hapart hle
      rw [hresized]
      refine ⟨m₂, ?_, hlive, hmoves, hkept⟩
      rw [growproc, deref_of_eq h.pagetable, deref_of_eq h.kPagetable]
      simp only [ok_bind, if_neg hneg, if_pos hneg', hsz, hnewsz,
        u32_of_lt (show newsz < 2 ^ 32 by omega), u64_of_lt (show newsz < 2 ^ 64 by omega), huser,
        hkern]
      rfl

end Shrink

section Grow

variable {L : Layout} {m : Machine} {p : Proc} {frame user kern : ℕ}

/-- The virtual pages that are new when a process grows from `sz` to `newsz`. -/
def newVpns (sz newsz : ℕ) : Finset ℕ := Finset.Ico (pages sz) (pages newsz)

/-- The pages that `uvmalloc` takes. -/
def userNeed (m : Machine) (user sz newsz : ℕ) : ℕ :=
  (pages newsz - pages sz) + (missing m.mem user (newVpns sz newsz)).card

/-- The table pages that `kvmcopy` takes. -/
def kernNeed (m : Machine) (kern sz newsz : ℕ) : ℕ := (missing m.mem kern (newVpns sz newsz)).card

/-- There were no pages to grow: the user page table may have new tables, and that is all. -/
structure Refused (L : Layout) (m m' : Machine) (p : Proc) (frame user kern : ℕ) : Prop where
  live : Live L m' p frame user kern
  moves : Moves (owned m p) (owned m' p) m m'
  userMap : ∀ vpn, vpn < 2 ^ 26 → entry m'.mem user vpn = entry m.mem user vpn
  kernMap : ∀ vpn, entry m'.mem kern vpn = entry m.mem kern vpn
  keep : ∀ page, page ∉ tables m.mem user → page ∉ m.free → m'.mem page = m.mem page

/-- `uvmalloc` gives back what it has taken, and leaves the contents of the pages alone. -/
theorem uvmalloc_refused (h : Live L m p frame user kern) (hapart : Apart m (owned m p)) {newsz : ℕ}
    {m₁ : Machine} {added : Finset (List (Fin 512))} (hle : p.sz ≤ newsz) (hend : newsz < 2 ^ 32)
    (hpos : 0 < newsz) (halloc : uvmalloc m user p.sz newsz = .ok (0, m₁))
    (hchange : Change user (Set.Iio (pages p.sz)) (Set.Iio (pages p.sz)) added (entry m.mem user)
      m m₁) : Refused L m m₁ p frame user kern := by
  have hlast : pages newsz < Vm.trapframe := by
    rw [pages, Vm.trapframe]
    omega
  rw [h.owned_eq] at hapart
  obtain ⟨hsep, hmoves, hkern, -⟩ := h.change_user hapart hchange.space hchange.moves
  have hentryKern := entry_frame hkern
  have hlive : Live L m₁ p frame user kern := by
    refine ⟨⟨hsep, h.trapframe, h.pagetable, h.kPagetable, ?_⟩, h.state, h.stack, h.size, ?_, ?_⟩
    · intro vpn hlo hhi
      rw [hchange.entry_eq vpn hhi]
      exact h.userRest vpn hlo hhi
    · intro vpn hvpn
      rw [hentryKern, hchange.entry_eq vpn (h.space.small vpn hvpn)]
      exact h.mirror vpn hvpn
    · intro vpn hlo hhi
      rw [hentryKern]
      exact h.kernRest vpn hlo hhi
  refine ⟨hlive, by rw [h.owned_eq, hlive.owned_eq]; exact hmoves, hchange.entry_eq, hentryKern, ?_⟩
  -- Seen as an operation on the tables alone, the call has no other page to write to.
  intro page htable hfree
  have hnone : held m.mem user ∅ = tables m.mem user := by simp [held, targets]
  rcases uvmalloc_spec (h.space.mono (Set.empty_subset _))
    (hapart.mono (by
      rw [hnone]
      exact fun page hpage => Or.inr (Or.inl (Or.inl hpage))))
    hle (show newsz ≤ 2 ^ 38 by omega) (fun vpn hlo hhi => h.user_vacant hlo (by omega)) with
    ⟨m₂, map, hok, -⟩ | ⟨m₂, added', hfail, halone, -⟩
  · rw [halloc] at hok
    simp only [Except.ok.injEq, Prod.mk.injEq] at hok
    omega
  · rw [halloc] at hfail
    cases hfail
    exact halone.moves.frame page (by rwa [hnone]) hfree

/-- The first step of growing. -/
theorem grow_user (h : Live L m p frame user kern) (hapart : Apart m (owned m p)) {newsz : ℕ}
    (hle : p.sz ≤ newsz) (hpos : 0 < newsz) (hnew : newsz < 2 ^ 32) :
    (∃ (m₁ : Machine) (map : ℕ → Word), uvmalloc m user p.sz newsz = .ok (newsz, m₁) ∧
      Separate m₁ frame user kern (Set.Iio (pages newsz)) ∧
      Moves (owned m p) (holding m₁ frame user kern (Set.Iio (pages newsz))) m m₁ ∧
      (∀ page ∈ tables m.mem kern, m₁.mem page = m.mem page) ∧
      m.free.length = m₁.free.length + userNeed m user p.sz newsz ∧
      (∀ vpn, vpn < 2 ^ 26 → entry m₁.mem user vpn = map vpn) ∧
      (∀ vpn, vpn < 2 ^ 26 → vpn ∉ Set.Ico (pages p.sz) (pages newsz) →
        map vpn = entry m.mem user vpn) ∧ Resized user m m₁ p.sz newsz) ∨
    (∃ m₁, uvmalloc m user p.sz newsz = .ok (0, m₁) ∧ Refused L m m₁ p frame user kern ∧
      m.free.length < userNeed m user p.sz newsz) := by
  have howned := hapart
  have hpages := pages_mono hle
  have hlast : pages newsz < Vm.trapframe := by
    rw [pages, Vm.trapframe]
    omega
  rw [h.owned_eq] at hapart ⊢
  have hapartUser : Apart m (held m.mem user (Set.Iio (pages p.sz))) :=
    hapart.mono (Set.subset_union_left.trans Set.subset_union_right)
  rcases uvmalloc_spec h.space hapartUser hle (show newsz ≤ 2 ^ 38 by omega)
    (fun vpn hlo hhi => h.user_vacant hlo (by omega)) with
    ⟨m₁, map, halloc, hgrow, hcount, hout, hin⟩ | ⟨m₁, added, halloc, hchange, -, hshort⟩
  · rw [Set.Iio_union_Ico_eq_Iio hpages] at hgrow
    obtain ⟨hsep, hmoves, hkern, -⟩ := h.change_user hapart hgrow.space hgrow.moves
    refine Or.inl ⟨m₁, map, halloc, hsep, hmoves, hkern, ?_, hgrow.entry_eq, hout, ?_⟩
    · rw [userNeed, newVpns]
      omega
    · intro vpn hvpn
      rw [Vm.trapframe] at hlast
      rw [hgrow.entry_eq vpn (by omega)]
      by_cases hold : vpn < pages p.sz
      · exact Or.inl ⟨hold, hgrow.same vpn hold⟩
      · exact Or.inr (hin vpn ⟨by omega, hvpn⟩)
  · exact Or.inr ⟨m₁, halloc, uvmalloc_refused h howned hle hnew hpos halloc hchange, hshort⟩

/-- The second step of growing, when the new size is below `PLIC`. -/
theorem grow_kern (h : Live L m p frame user kern) (hapart : Apart m (owned m p)) {newsz : ℕ}
    (hle : p.sz ≤ newsz) (hplic : newsz ≤ L.plic * 4096) {m₁ : Machine} {map : ℕ → Word}
    (hsep : Separate m₁ frame user kern (Set.Iio (pages newsz)))
    (hmoves : Moves (owned m p) (holding m₁ frame user kern (Set.Iio (pages newsz))) m m₁)
    (hkern : ∀ page ∈ tables m.mem kern, m₁.mem page = m.mem page)
    (hentry : ∀ vpn, vpn < 2 ^ 26 → entry m₁.mem user vpn = map vpn)
    (hout : ∀ vpn, vpn < 2 ^ 26 → vpn ∉ Set.Ico (pages p.sz) (pages newsz) →
      map vpn = entry m.mem user vpn) :
    (∃ m₂, kvmcopy L m₁ user kern p.sz newsz = .ok (true, m₂) ∧
      Live L m₂ { p with sz := newsz } frame user kern ∧
      Moves (owned m p) (owned m₂ { p with sz := newsz }) m m₂ ∧
      m₁.free.length = m₂.free.length + kernNeed m kern p.sz newsz ∧
      ∀ vpn, entry m₂.mem user vpn = entry m₁.mem user vpn) ∨
    (∃ m₂, kvmcopy L m₁ user kern p.sz newsz = .ok (false, m₂) ∧
      (∀ vpn, entry m₂.mem user vpn = entry m₁.mem user vpn) ∧
      m₁.free.length < kernNeed m kern p.sz newsz) := by
  have hpages := pages_mono hle
  have hplic' := L.plic_lt
  have hlast : pages newsz ≤ L.plic := by
    rw [pages]
    omega
  have hentryKern := entry_frame hkern
  have hneed : missing m₁.mem kern (newVpns p.sz newsz) = missing m.mem kern (newVpns p.sz newsz) :=
    missing_frame hkern _
  have hapart₁ := hmoves.keeps_apart hapart fun page hpage => by
    rw [h.owned_eq] at hpage
    exact h.page_lt hpage
  have hready : Ready m₁ kern :=
    ⟨hapart₁.mono (Set.subset_union_right.trans Set.subset_union_right), hsep.table⟩
  have haway : Away (tables m₁.mem user) (tables m₁.mem kern) m₁ := by
    intro page hpage
    exact ⟨fun hmem => Set.disjoint_left.mp hsep.disjoint (Or.inl hpage) hmem,
      fun hfree => hapart₁.apart page hfree (Or.inr (Or.inl (Or.inl hpage)))⟩
  have hspec := kvmcopy_spec L hready hsep.space.table haway hle hplic (by omega)
    (fun vpn _ hhi => hsep.space.mapped vpn hhi)
    (fun vpn hlo hhi => by
      rw [hentryKern]
      exact h.kern_vacant hlo (by omega))
    (fun vpn hhi => by
      rw [hentryKern]
      exact h.kern_valid hhi)
  rw [← newVpns, hneed, ← kernNeed] at hspec
  rcases hspec with ⟨m₂, hcopy, hedit⟩ | ⟨m₂, added, hcopy, hedit, hshort⟩
  · obtain ⟨hsep₂, hmoves₂, huser₂, -⟩ := hsep.change_kern hapart₁ hedit.table hedit.moves
    have hentryUser : ∀ vpn, entry m₂.mem user vpn = entry m₁.mem user vpn :=
      entry_frame fun page hpage => huser₂ page (Or.inl hpage)
    have hlive : Live L m₂ { p with sz := newsz } frame user kern := by
      refine ⟨⟨hsep₂, h.trapframe, h.pagetable, h.kPagetable, ?_⟩, h.state, h.stack, hplic, ?_, ?_⟩
      · intro vpn hlo hhi
        change pages newsz ≤ vpn at hlo
        rw [hentryUser, hentry vpn hhi, hout vpn hhi (by rw [Set.mem_Ico]; omega)]
        exact h.userRest vpn (by omega) hhi
      · intro vpn hvpn
        change vpn < pages newsz at hvpn
        rw [hedit.entry_eq vpn (by omega), mirrorMap, hentryUser]
        by_cases hin : pages p.sz ≤ vpn
        · rw [if_pos (by omega)]
        · rw [if_neg (by omega), hentryKern, h.mirror vpn (by omega), hentry vpn (by omega),
            hout vpn (by omega) (by rw [Set.mem_Ico]; omega)]
      · intro vpn hlo hhi
        change pages newsz ≤ vpn at hlo
        rw [hedit.entry_eq vpn hhi, mirrorMap, if_neg (by omega), hentryKern]
        exact h.kernRest vpn (by omega) hhi
    refine Or.inl ⟨m₂, hcopy, hlive, ?_, hedit.count, hentryUser⟩
    rw [hlive.owned_eq]
    exact hmoves.trans hmoves₂
  · obtain ⟨-, -, huser₂, -⟩ := hsep.change_kern hapart₁ hedit.table hedit.moves
    have hentryUser : ∀ vpn, entry m₂.mem user vpn = entry m₁.mem user vpn :=
      entry_frame fun page hpage => huser₂ page (Or.inl hpage)
    exact Or.inr ⟨m₂, hcopy, hentryUser, hshort⟩

/-- `growproc(n)` for a positive `n`: the process grows; or there are no pages for
the user memory, and nothing has changed; or the mirror cannot be extended, and the
new user pages are mapped all the same. -/
theorem growproc_grow (h : Live L m p frame user kern) (hapart : Apart m (owned m p)) {k : ℕ}
    (hpos : 0 < k) (hk : k < 2 ^ 31) :
    (∃ m', growproc L m p k = .ok (true, { p with sz := p.sz + k }, m') ∧
      p.sz + k ≤ L.plic * 4096 ∧ Live L m' { p with sz := p.sz + k } frame user kern ∧
      Moves (owned m p) (owned m' { p with sz := p.sz + k }) m m' ∧
      Resized user m m' p.sz (p.sz + k) ∧
      userNeed m user p.sz (p.sz + k) + kernNeed m kern p.sz (p.sz + k) ≤ m.free.length) ∨
    (∃ m', growproc L m p k = .ok (false, p, m') ∧ Refused L m m' p frame user kern ∧
      m.free.length < userNeed m user p.sz (p.sz + k)) ∨
    (∃ m' vpn, growproc L m p k = .ok (false, p, m') ∧ vpn < 2 ^ 26 ∧
      entry m'.mem user vpn ≠ entry m.mem user vpn ∧
      userNeed m user p.sz (p.sz + k) ≤ m.free.length ∧
      (L.plic * 4096 < p.sz + k ∨
        m.free.length < userNeed m user p.sz (p.sz + k) + kernNeed m kern p.sz (p.sz + k))) := by
  have hsize := h.size_lt
  have hle : p.sz ≤ p.sz + k := Nat.le_add_right _ _
  have hsz := u32_of_lt (show p.sz < 2 ^ 32 by omega)
  have hnewsz := u32_of_lt (show p.sz + k < 2 ^ 32 by omega)
  have hnewsz' := u64_of_lt (show p.sz + k < 2 ^ 64 by omega)
  have hpos' : (0 : Int) < k := by omega
  have hplic := h.pages_le
  have hplicLt := L.plic_lt
  rw [growproc, deref_of_eq h.pagetable, deref_of_eq h.kPagetable]
  simp only [ok_bind, if_pos hpos', hsz, ← Nat.cast_add, hnewsz, hnewsz']
  rcases grow_user h hapart hle (show 0 < p.sz + k by omega) (show p.sz + k < 2 ^ 32 by omega) with
    ⟨m₁, map, halloc, hsep, hmoves, hkern, hcount, hentry, hout, hkept⟩ |
    ⟨m₁, halloc, hrefused, hshort⟩
  · rw [halloc]
    simp only [ok_bind, hnewsz, if_neg (show ¬ p.sz + k = 0 by omega)]
    -- Where the mirror fails, the first new page is mapped nevertheless.
    have hchanged : pages p.sz < pages (p.sz + k) →
        entry m₁.mem user (pages p.sz) ≠ entry m.mem user (pages p.sz) := by
      intro hlt heq
      have hvalid := hsep.space.mapped (pages p.sz) hlt
      rw [heq, h.user_vacant le_rfl (by rw [Vm.trapframe]; omega)] at hvalid
      exact not_valid_zero hvalid
    by_cases hlimit : p.sz + k ≤ L.plic * 4096
    · rcases grow_kern h hapart hle hlimit hsep hmoves hkern hentry hout with
        ⟨m₂, hcopy, hlive, hmoves₂, hcount₂, huser₂⟩ | ⟨m₂, hcopy, huser₂, hshort⟩
      · have hkept₂ : Resized user m m₂ p.sz (p.sz + k) := by
          intro vpn hvpn
          rw [huser₂]
          exact hkept vpn hvpn
        refine Or.inl ⟨m₂, ?_, hlimit, hlive, hmoves₂, hkept₂, by omega⟩
        simp only [hcopy, ok_bind, Bool.true_eq_false, if_false]
        rfl
      · have hlt : pages p.sz < pages (p.sz + k) := by
          by_contra hnot
          have hnone : newVpns p.sz (p.sz + k) = ∅ := Finset.Ico_eq_empty (by omega)
          rw [kernNeed, hnone] at hshort
          simp [missing] at hshort
        refine Or.inr (Or.inr ⟨m₂, pages p.sz, ?_, by omega, ?_, by omega, Or.inr (by omega)⟩)
        · simp only [hcopy, ok_bind, if_true]
          rfl
        · rw [huser₂]
          exact hchanged hlt
    · have hlt : pages p.sz < pages (p.sz + k) := by
        have := h.size
        rw [pages, pages]
        omega
      have hcopy : kvmcopy L m₁ user kern p.sz (p.sz + k) = .ok (false, m₁) := by
        rw [kvmcopy, if_pos (by rw [pgSize]; omega)]
      refine Or.inr (Or.inr ⟨m₁, pages p.sz, ?_, by omega, hchanged hlt, by omega,
        Or.inl (by omega)⟩)
      simp only [hcopy, ok_bind, if_true]
      rfl
  · refine Or.inr (Or.inl ⟨m₁, ?_, hrefused, hshort⟩)
    rw [halloc]
    simp only [ok_bind, if_pos (show u32 (0 : ℕ) = 0 from rfl)]
    rfl

/-- A call that finds no pages fails and leaves the process as it was. -/
theorem Live.growproc_refused (h : Live L m p frame user kern) (hapart : Apart m (owned m p))
    {n : Int} (hhi : n < 2 ^ 31)
    (hshort : m.free.length < userNeed m user p.sz (p.sz + n.toNat)) {p' : Proc} {m' : Machine}
    (hgrow : growproc L m p n = .ok (false, p', m')) :
    p' = p ∧ Refused L m m' p frame user kern := by
  have hpos : 0 < n := by
    by_contra hnot
    rw [Int.toNat_of_nonpos (by omega), Nat.add_zero, userNeed, newVpns, Finset.Ico_self] at hshort
    simp [missing] at hshort
  obtain ⟨k, rfl⟩ := Int.eq_ofNat_of_zero_le hpos.le
  rw [Int.toNat_natCast] at hshort
  rcases growproc_grow h hapart (show 0 < k by omega) (by omega) with
    ⟨m'', hok, -⟩ | ⟨m'', hfail, hrefused, -⟩ | ⟨m'', vpn, -, -, -, henough, -⟩
  · rw [hok] at hgrow
    cases hgrow
  · rw [hfail] at hgrow
    cases hgrow
    exact ⟨rfl, hrefused⟩
  · omega

/-- What is expected of `growproc(n)`: the size and both tables change, or neither
of them does. -/
def AllOrNothing (L : Layout) (m : Machine) (p : Proc) (n : Int) (user kern : ℕ) : Prop :=
  ∃ ok p' m', growproc L m p n = .ok (ok, p', m') ∧
    p'.pagetable = some user ∧ p'.kPagetable = some kern ∧
    ((ok = true ∧ (p'.sz : Int) = (if p.sz + n < 0 then (p.sz : Int) else p.sz + n) ∧
        (∀ vpn, vpn < trapframe → (Valid (entry m'.mem user vpn) ↔ vpn < pages p'.sz)) ∧
        ∀ vpn, vpn < L.plic → (Valid (entry m'.mem kern vpn) ↔ vpn < pages p'.sz)) ∨
      (ok = false ∧ p'.sz = p.sz ∧
        (∀ vpn, vpn < 2 ^ 26 → entry m'.mem user vpn = entry m.mem user vpn) ∧
        ∀ vpn, vpn < 2 ^ 26 → entry m'.mem kern vpn = entry m.mem kern vpn))

/-- A live process has exactly the pages below its size mapped, in both tables. -/
theorem Live.mapped_iff (h : Live L m p frame user kern) :
    (∀ vpn, vpn < Vm.trapframe → (Valid (entry m.mem user vpn) ↔ vpn < pages p.sz)) ∧
      ∀ vpn, vpn < L.plic → (Valid (entry m.mem kern vpn) ↔ vpn < pages p.sz) := by
  constructor
  · intro vpn hvpn
    constructor
    · intro hvalid
      by_contra hnot
      rw [h.user_vacant (by omega) hvpn] at hvalid
      exact not_valid_zero hvalid
    · exact fun hlt => h.space.mapped vpn hlt
  · intro vpn hvpn
    constructor
    · intro hvalid
      by_contra hnot
      rw [h.kern_vacant (by omega) hvpn] at hvalid
      exact not_valid_zero hvalid
    · exact fun hlt => h.kern_valid hlt

/-- `growproc(n)` is all or nothing exactly when it does not have to extend the
mirror, or can. -/
theorem growproc_allOrNothing_iff (h : Live L m p frame user kern) (hapart : Apart m (owned m p))
    {n : Int} (hlo : -2 ^ 31 ≤ n) (hhi : n < 2 ^ 31) :
    AllOrNothing L m p n user kern ↔
      n ≤ 0 ∨ m.free.length < userNeed m user p.sz (p.sz + n.toNat) ∨
        (p.sz + n.toNat ≤ L.plic * 4096 ∧
          userNeed m user p.sz (p.sz + n.toNat) + kernNeed m kern p.sz (p.sz + n.toNat)
            ≤ m.free.length) := by
  by_cases hn : n ≤ 0
  · refine iff_of_true ?_ (Or.inl hn)
    obtain ⟨m', hgrow, hlive, -⟩ := growproc_shrink h hapart hn hlo
    refine ⟨true, _, m', hgrow, h.pagetable, h.kPagetable, Or.inl ⟨rfl, ?_, hlive.mapped_iff⟩⟩
    simp only [resized]
    split <;> omega
  · obtain ⟨k, rfl⟩ := Int.eq_ofNat_of_zero_le (show 0 ≤ n by omega)
    simp only [Int.toNat_natCast]
    rcases growproc_grow h hapart (show 0 < k by omega) (by omega) with
      ⟨m', hgrow, hlimit, hlive, -, -, hneed⟩ | ⟨m', hgrow, hrefused, hshort⟩ |
      ⟨m', vpn, hgrow, hvpn, hchanged, hneed, hfail⟩
    · refine iff_of_true ⟨true, _, m', hgrow, h.pagetable, h.kPagetable,
        Or.inl ⟨rfl, ?_, hlive.mapped_iff⟩⟩ (Or.inr (Or.inr ⟨hlimit, hneed⟩))
      rw [if_neg (by omega)]
      push_cast
      rfl
    · exact iff_of_true ⟨false, p, m', hgrow, h.pagetable, h.kPagetable,
        Or.inr ⟨rfl, rfl, hrefused.userMap, fun vpn _ => hrefused.kernMap vpn⟩⟩
        (Or.inr (Or.inl hshort))
    · apply iff_of_false
      · rintro ⟨ok, p', m'', hgrow', -, -, hcases⟩
        rw [hgrow] at hgrow'
        cases hgrow'
        rcases hcases with ⟨hok, -⟩ | ⟨-, -, huser, -⟩
        · cases hok
        · exact hchanged (huser vpn hvpn)
      · omega

/-- No page of the kernel shares its last table with page 0. -/
theorem kernel_tables_high {kstack : ℕ} (hplic : 512 ≤ L.plic)
    (hstack : 512 ≤ kstack ∧ kstack < 2 ^ 26) : pathOf 0 ∉ tablesFor (kernelVpns L kstack) := by
  intro hmem
  obtain ⟨vpn, hvpn, hpath⟩ := mem_tablesFor.mp hmem
  have hcases := mem_kernelVpns L hvpn
  have hphystop := L.phystop_lt
  rw [trampoline] at hcases
  simp only [pathsOf, pathOf, idx, Finset.mem_insert, Finset.mem_singleton, List.cons.injEq,
    Fin.mk.injEq, and_true, reduceCtorEq, and_false, false_or] at hpath
  omega

/-- A process without memory beside three free pages: enough for the first user page
and its tables, and not for the table of the mirror. -/
theorem exists_short_of_mirror :
    ∃ (m : Machine) (p : Proc) (frame user kern : ℕ), Live virt m p frame user kern ∧
      Apart m (owned m p) ∧ m.free.length = userNeed m user p.sz (p.sz + 4096) ∧
      0 < kernNeed m kern p.sz (p.sz + 4096) := by
  obtain ⟨m₀, m, p, frame, user, kern, hfresh, hstack, hapart, -, hfree⟩ :=
    exists_fresh virt (by decide) (show 3 < 2 ^ 51 by decide)
  have hlo : virt.phystop ≤ p.kstack := by
    rw [hstack]
    exact virt.kstack_ge 0 (by decide)
  have hlive := hfresh.live hlo (show ProcState.runnable ≠ .unused by decide)
  have hvpns : newVpns p.sz (p.sz + 4096) = {0} := by
    rw [hfresh.empty]
    decide
  refine ⟨m, { p with state := .runnable }, frame, user, kern, hlive, hapart, ?_, ?_⟩
  · change m.free.length = userNeed m user p.sz (p.sz + 4096)
    rw [hfree, userNeed, hvpns, hfresh.userMissing, hfresh.empty]
    decide
  · change 0 < kernNeed m kern p.sz (p.sz + 4096)
    rw [kernNeed, hvpns, hfresh.kernMissing, Finset.card_pos]
    refine ⟨pathOf 0, ?_⟩
    rw [Finset.mem_sdiff]
    refine ⟨by decide, kernel_tables_high (by decide) ?_⟩
    rw [hstack]
    decide

/-- The same beside a hundred free pages. -/
theorem exists_room_for_mirror :
    ∃ (m : Machine) (p : Proc) (frame user kern : ℕ), Live virt m p frame user kern ∧
      Apart m (owned m p) ∧ p.sz + 4096 ≤ virt.plic * 4096 ∧
      userNeed m user p.sz (p.sz + 4096) + kernNeed m kern p.sz (p.sz + 4096)
        ≤ m.free.length := by
  obtain ⟨m₀, m, p, frame, user, kern, hfresh, hstack, hapart, -, hfree⟩ :=
    exists_fresh virt (by decide) (show 100 < 2 ^ 51 by decide)
  have hlo : virt.phystop ≤ p.kstack := by
    rw [hstack]
    exact virt.kstack_ge 0 (by decide)
  have hlive := hfresh.live hlo (show ProcState.runnable ≠ .unused by decide)
  have hvpns : newVpns p.sz (p.sz + 4096) = {0} := by
    rw [hfresh.empty]
    decide
  refine ⟨m, { p with state := .runnable }, frame, user, kern, hlive, hapart, ?_, ?_⟩
  · change p.sz + 4096 ≤ virt.plic * 4096
    rw [hfresh.empty]
    decide
  · change userNeed m user p.sz (p.sz + 4096) + kernNeed m kern p.sz (p.sz + 4096)
      ≤ m.free.length
    have huser : userNeed m user p.sz (p.sz + 4096) = 3 := by
      rw [userNeed, hvpns, hfresh.userMissing, hfresh.empty]
      decide
    have hkern := (Finset.card_le_card (Finset.sdiff_subset (s := tablesFor {0})
      (t := tablesFor (kernelVpns virt p.kstack)))).trans (show _ ≤ 2 by decide)
    rw [huser, kernNeed, hvpns, hfresh.kernMissing, hfree]
    omega

theorem growproc_allOrNothing_short :
    (∃ (m : Machine) (p : Proc) (frame user kern : ℕ), Live virt m p frame user kern ∧
      Apart m (owned m p) ∧ ¬ AllOrNothing virt m p 4096 user kern) ∧
    ∃ (m : Machine) (p : Proc) (frame user kern : ℕ), Live virt m p frame user kern ∧
      Apart m (owned m p) ∧ AllOrNothing virt m p 4096 user kern := by
  constructor
  · obtain ⟨m, p, frame, user, kern, hlive, hapart, hfree, hmirror⟩ := exists_short_of_mirror
    refine ⟨m, p, frame, user, kern, hlive, hapart, fun hall => ?_⟩
    rcases (growproc_allOrNothing_iff hlive hapart (by decide) (by decide)).mp hall with
      hzero | hshort | ⟨-, henough⟩
    · exact absurd hzero (by decide)
    · exact Nat.ne_of_lt hshort hfree
    · change userNeed m user p.sz (p.sz + 4096) + kernNeed m kern p.sz (p.sz + 4096)
        ≤ m.free.length at henough
      omega
  · obtain ⟨m, p, frame, user, kern, hlive, hapart, hplic, henough⟩ := exists_room_for_mirror
    exact ⟨m, p, frame, user, kern, hlive, hapart,
      (growproc_allOrNothing_iff hlive hapart (by decide) (by decide)).mpr
        (Or.inr (Or.inr ⟨hplic, henough⟩))⟩

theorem growproc_not_allOrNothing : ¬ ∀ (L : Layout) (m : Machine) (p : Proc)
    (frame user kern : ℕ) (n : Int), Live L m p frame user kern → Apart m (owned m p) →
      -2 ^ 31 ≤ n → n < 2 ^ 31 → AllOrNothing L m p n user kern := by
  intro hall
  obtain ⟨m, p, frame, user, kern, hlive, hapart, hfree, hneed⟩ := exists_short_of_mirror
  have hclaim := hall virt m p frame user kern 4096 hlive hapart (by decide) (by decide)
  obtain ⟨ok, p', m', hgrow, -, -, hcases⟩ := hclaim
  rcases growproc_grow hlive hapart (show 0 < 4096 by decide) (by decide) with
    ⟨-, -, -, -, -, -, henough⟩ | ⟨-, -, -, hshort⟩ | ⟨m'', vpn, hgrow', hvpn, hchanged, -, -⟩
  · omega
  · omega
  · change growproc virt m p 4096 = _ at hgrow'
    rw [hgrow'] at hgrow
    cases hgrow
    rcases hcases with ⟨hok, -⟩ | ⟨-, -, huser, -⟩
    · cases hok
    · exact hchanged (huser vpn hvpn)

end Grow

end OperateSystem.Vm

import OperateSystem.Vm.DirectAccess
import OperateSystem.Vm.Lifetimes

/-!
# What the pages of a process hold

The other results on `growproc` and `fork` are about page tables and about who owns a page.
Here they are followed by what is in the pages: pages that a process keeps hold what they
held before, and the pages that `uvmalloc` adds hold zeros.
-/

namespace OperateSystem.Vm

open OperateSystem.PointerTree

instance (m : Machine) (root vpn : ℕ) : Decidable (Open m root vpn) :=
  inferInstanceAs (Decidable (_ ∧ _))

/-- User memory as the user sees it: the byte at an address, if the user may use its page. -/
def userMemory (m : Machine) (root va : ℕ) : Option (BitVec 8) :=
  if va < maxVa ∧ Open m root (va / pgSize) then some (mappedByte m root va) else none

section Uvmalloc

variable {root : ℕ}

/-- The pages that the loop of `uvmalloc` adds hold zeros.  A page is cleared before it is
mapped, and the rest of the loop leaves it alone. -/
theorem uvmallocLoop_zeroed {n v v₀ : ℕ} {m m' : Machine} {S : Set ℕ} (h : Space m.mem root S)
    (hapart : Apart m (held m.mem root S)) (hend : v + n ≤ 2 ^ 26)
    (hvacant : ∀ vpn, v ≤ vpn → vpn < v + n → entry m.mem root vpn = 0) (hv₀ : v₀ ≤ v)
    (hdone : ∀ vpn, v₀ ≤ vpn → vpn < v → vpn ∈ S)
    (hloop : uvmallocLoop root (v₀ * 4096) n (4096 * v) m = .ok (true, m')) {vpn : ℕ}
    (hlo : v ≤ vpn) (hhi : vpn < v + n) :
    m'.mem (pte2pa (entry m'.mem root vpn)) = fun _ => 0 := by
  induction n generalizing v m S with
  | zero => omega
  | succ n ih =>
      have hv : v < 2 ^ 26 := by omega
      have hnot : ¬ Valid (entry m.mem root v) := by
        rw [hvacant v (by omega) (by omega)]
        exact not_valid_zero
      rcases acquire_spec h hapart hv hnot (fun _ => 0) (show userPerm.toNat < 2 ^ 10 by decide)
        (show Leaf userPerm by decide) with
        ⟨page, m₁, m₂, hkalloc, hmap, hgrow, -, hcontent, -, hbound, -⟩ | ⟨hkalloc, -⟩ |
        ⟨page, m₁, m₂, added, hkalloc, hmap, -⟩
      · rw [uvmallocLoop, hkalloc] at hloop
        simp only [Machine.zero] at hloop
        rw [show pteW ||| pteX ||| pteR ||| pteU = userPerm from rfl, hmap] at hloop
        change uvmallocLoop root (v₀ * 4096) n (4096 * (v + 1)) m₂ = .ok (true, m') at hloop
        have hapart₂ := hgrow.toChange.apart hapart
        have hvacant₂ : ∀ vpn, v + 1 ≤ vpn → vpn < v + 1 + n → entry m₂.mem root vpn = 0 := by
          intro vpn hlo hhi
          rw [hgrow.entry_eq vpn (by omega), Function.update_of_ne (by omega)]
          exact hvacant vpn (by omega) (by omega)
        have hdone₂ : ∀ vpn, v₀ ≤ vpn → vpn < v + 1 → vpn ∈ insert v S := by
          intro vpn hlo hhi
          by_cases heq : vpn = v
          · exact Or.inl heq
          · exact Or.inr (hdone vpn hlo (by omega))
        by_cases heq : vpn = v
        · subst heq
          rcases uvmallocLoop_spec hgrow.space hapart₂ (show vpn + 1 + n ≤ 2 ^ 26 by omega)
            hvacant₂ (show v₀ ≤ vpn + 1 by omega) hdone₂ with
            ⟨m₃, map, hok, hrest, -⟩ | ⟨m₃, added, hfail, -⟩
          · rw [hloop] at hok
            cases hok
            have htarget : pte2pa (entry m₂.mem root vpn) = page := by
              rw [hgrow.entry_eq vpn hv, Function.update_self, BitVec.or_assoc]
              exact pte2pa_entry hbound (by decide)
            have hkeep := hrest.keep vpn (Set.mem_insert vpn S)
            rw [htarget] at hkeep
            rw [hrest.entry_eq vpn hv, hrest.same vpn (Set.mem_insert vpn S), htarget, hkeep,
              hcontent]
          · rw [hloop] at hfail
            cases hfail
        · exact ih hgrow.space hapart₂ (by omega) hvacant₂ (by omega) hdone₂ hloop (by omega)
            (by omega)
      · rw [uvmallocLoop, hkalloc] at hloop
        cases hdealloc : uvmdealloc m root (4096 * v) (v₀ * 4096) with
        | error e =>
            simp only [hdealloc, error_bind] at hloop
            cases hloop
        | ok result =>
            simp only [hdealloc, ok_bind] at hloop
            cases hloop
      · rw [uvmallocLoop, hkalloc] at hloop
        simp only [Machine.zero] at hloop
        rw [show pteW ||| pteX ||| pteR ||| pteU = userPerm from rfl, hmap] at hloop
        simp only [ok_bind, Bool.false_eq_true, if_false] at hloop
        cases hdealloc : uvmdealloc (m₂.kfree page) root (4096 * v) (v₀ * 4096) with
        | error e =>
            rw [hdealloc, error_bind] at hloop
            cases hloop
        | ok result =>
            rw [hdealloc, ok_bind] at hloop
            cases hloop

/-- The size that `uvmalloc` returns. -/
theorem uvmalloc_size {m m' : Machine} {oldsz newsz sz : ℕ} (hle : oldsz ≤ newsz)
    (hold : oldsz < 2 ^ 63) (halloc : uvmalloc m root oldsz newsz = .ok (sz, m')) :
    sz = newsz ∨ sz = 0 := by
  rw [uvmalloc_eq_loop hle hold] at halloc
  cases hloop : uvmallocLoop root (pages oldsz * 4096) (pages newsz - pages oldsz)
      (4096 * pages oldsz) m with
  | error e =>
      rw [hloop] at halloc
      cases halloc
  | ok result =>
      rw [hloop] at halloc
      cases halloc
      exact ite_eq_or_eq _ _ _

/-- The pages that `uvmalloc` adds hold zeros. -/
theorem uvmalloc_zeroed {m m' : Machine} {S : Set ℕ} {oldsz newsz : ℕ} (h : Space m.mem root S)
    (hapart : Apart m (held m.mem root S)) (hle : oldsz ≤ newsz) (hend : newsz ≤ 2 ^ 38)
    (hvacant : ∀ vpn, pages oldsz ≤ vpn → vpn < pages newsz → entry m.mem root vpn = 0)
    (hpos : 0 < newsz) (halloc : uvmalloc m root oldsz newsz = .ok (newsz, m')) {vpn : ℕ}
    (hlo : pages oldsz ≤ vpn) (hhi : vpn < pages newsz) :
    m'.mem (pte2pa (entry m'.mem root vpn)) = fun _ => 0 := by
  have hlast : pages newsz ≤ 2 ^ 26 := by
    rw [pages]
    omega
  rw [uvmalloc_eq_loop hle (by omega)] at halloc
  cases hloop : uvmallocLoop root (pages oldsz * 4096) (pages newsz - pages oldsz)
      (4096 * pages oldsz) m with
  | error e =>
      rw [hloop] at halloc
      cases halloc
  | ok result =>
      obtain ⟨ok, m₁⟩ := result
      rw [hloop] at halloc
      cases ok with
      | true =>
          cases halloc
          exact uvmallocLoop_zeroed h hapart (show pages oldsz + _ ≤ 2 ^ 26 by omega)
            (fun vpn hlo hhi => hvacant vpn hlo (by omega)) (le_refl _)
            (fun vpn hlo hhi => by omega) hloop hlo (by omega)
      | false =>
          simp only [Except.map, Bool.false_eq_true, if_false, Except.ok.injEq,
            Prod.mk.injEq] at halloc
          omega

end Uvmalloc

/-- The pages of user memory after a resize from `sz` to `newsz`: a page that stays is mapped as
before and holds what it held; a new one has the flags of `uvmalloc` and holds zeros. -/
def Carried (user : ℕ) (m m' : Machine) (sz newsz : ℕ) : Prop :=
  ∀ vpn, vpn < pages newsz →
    (vpn < pages sz ∧ entry m'.mem user vpn = entry m.mem user vpn ∧
      m'.mem (pte2pa (entry m.mem user vpn)) = m.mem (pte2pa (entry m.mem user vpn))) ∨
    (pages sz ≤ vpn ∧ pteFlags (entry m'.mem user vpn) = userPerm ||| pteV ∧
      m'.mem (pte2pa (entry m'.mem user vpn)) = fun _ => 0)

section Separate

variable {L : Layout} {m m' : Machine} {frame user kern st sz : ℕ}

theorem Separate.ready_kern {S : Set ℕ} (h : Separate m frame user kern S)
    (hapart : Apart m (holding m frame user kern S)) : Ready m kern :=
  ⟨hapart.mono (Set.subset_union_right.trans Set.subset_union_right), h.table⟩

/-- `kvmcopy` leaves the user memory and the trapframe alone. -/
theorem Separate.kvmcopy_keeps (h : Separate m frame user kern (Set.Iio (pages sz)))
    (hapart : Apart m (holding m frame user kern (Set.Iio (pages sz)))) (hst : st ≤ sz)
    (hplic : sz ≤ L.plic * 4096) (hend : sz ≤ 2 ^ 38)
    (hvacant : ∀ vpn, pages st ≤ vpn → vpn < pages sz → entry m.mem kern vpn = 0)
    (hbelow : ∀ vpn, vpn < pages st → Valid (entry m.mem kern vpn))
    (hcopy : kvmcopy L m user kern st sz = .ok (true, m')) :
    (∀ page ∈ held m.mem user (Set.Iio (pages sz)), m'.mem page = m.mem page) ∧
      m'.mem frame = m.mem frame := by
  have haway : Away (tables m.mem user) (tables m.mem kern) m := by
    intro page hpage
    exact ⟨fun hmem => Set.disjoint_left.mp h.disjoint (Or.inl hpage) hmem,
      fun hfree => hapart.apart page hfree (Or.inr (Or.inl (Or.inl hpage)))⟩
  rcases kvmcopy_spec L (h.ready_kern hapart) h.space.table haway hst hplic hend
    (fun vpn _ hvpn => h.space.mapped vpn hvpn) hvacant hbelow with
    ⟨m₂, hok, hedit⟩ | ⟨m₂, added, hfail, -⟩
  · rw [hcopy] at hok
    cases hok
    exact (h.change_kern hapart hedit.table hedit.moves).2.2
  · rw [hcopy] at hfail
    cases hfail

/-- `kvmdealloc` leaves the user memory and the trapframe alone. -/
theorem Separate.kvmdealloc_keeps {S : Set ℕ} {oldsz newsz sz' : ℕ}
    (h : Separate m frame user kern S) (hapart : Apart m (holding m frame user kern S))
    (hold : oldsz < 2 ^ 37) (hnew : newsz < 2 ^ 37)
    (hvalid : ∀ vpn, pages newsz ≤ vpn → vpn < pages oldsz → Valid (entry m.mem kern vpn))
    (hdealloc : kvmdealloc m kern oldsz newsz = .ok (sz', m')) :
    (∀ page ∈ held m.mem user S, m'.mem page = m.mem page) ∧ m'.mem frame = m.mem frame := by
  obtain ⟨m₂, hok, -, hedit⟩ := kvmdealloc_spec (h.ready_kern hapart) hold hnew hvalid
  rw [hdealloc] at hok
  cases hok
  exact (h.change_kern hapart hedit.table hedit.moves).2.2

end Separate

section Growproc

variable {L : Layout} {m m' : Machine} {p p' : Proc} {frame user kern : ℕ}

/-- Shrinking carries the pages below the new size over, and the trapframe.  To `uvmdealloc`
the space that matters is the part it frees; the other pages are outside of it and are not
touched. -/
theorem Live.shrink_carried (h : Live L m p frame user kern) (hapart : Apart m (owned m p))
    {newsz sz₁ sz₂ : ℕ} {m₁ : Machine} (hle : newsz ≤ p.sz)
    (huser : uvmdealloc m user p.sz newsz = .ok (sz₁, m₁))
    (hkern : kvmdealloc m₁ kern p.sz newsz = .ok (sz₂, m')) :
    Carried user m m' p.sz newsz ∧ m'.mem frame = m.mem frame := by
  have hsize := h.size_lt
  have hpages := pages_mono hle
  have hplic := h.pages_le
  have hbound := L.plic_lt
  have howned := hapart
  rw [h.owned_eq] at hapart
  have hapartUser : Apart m (held m.mem user (Set.Iio (pages p.sz))) :=
    hapart.mono (Set.subset_union_left.trans Set.subset_union_right)
  have hfreed : Set.Ico (pages newsz) (pages p.sz) ⊆ Set.Iio (pages p.sz) := fun _ hvpn => hvpn.2
  obtain ⟨m₂, hok, -, hpart⟩ := uvmdealloc_spec (h.space.mono hfreed)
    (hapartUser.mono (Set.union_subset_union_right _ fun page ⟨vpn, hvpn, heq⟩ =>
      ⟨vpn, hfreed hvpn, heq⟩))
    (show p.sz < 2 ^ 63 by omega) (fun vpn hlo hhi => ⟨hlo, hhi⟩)
  rw [huser] at hok
  cases hok
  obtain ⟨m₂, hok, -, hchange⟩ := uvmdealloc_spec h.space hapartUser
    (show p.sz < 2 ^ 63 by omega)
    (show ∀ vpn, pages newsz ≤ vpn → vpn < pages p.sz → vpn ∈ Set.Iio (pages p.sz) from
      fun vpn _ hvpn => hvpn)
  rw [huser] at hok
  cases hok
  rw [Iio_sdiff_Ico hpages] at hchange
  obtain ⟨hsep₁, hmoves₁, hkern₁, hframe₁⟩ := h.change_user hapart hchange.space hchange.moves
  have hapart₁ := hmoves₁.keeps_apart hapart fun page hpage => h.page_lt hpage
  obtain ⟨hkeep, hframe⟩ := hsep₁.kvmdealloc_keeps hapart₁ (show p.sz < 2 ^ 37 by omega)
    (show newsz < 2 ^ 37 by omega) (by
      intro vpn _ hvpn
      rw [entry_frame hkern₁]
      exact h.kern_valid hvpn) hkern
  refine ⟨?_, hframe.trans hframe₁⟩
  intro vpn hvpn
  have hentry₁ : entry m₁.mem user vpn = entry m.mem user vpn := by
    rw [hchange.entry_eq vpn (by omega), clearMap, if_neg (by omega)]
  refine Or.inl ⟨by omega, ?_, ?_⟩
  · rw [entry_frame fun page hpage => hkeep page (Or.inl hpage), hentry₁]
  · rw [← hentry₁, hkeep _ (Or.inr ⟨vpn, hvpn, rfl⟩), hentry₁]
    apply hpart.moves.frame
    · rintro (htable | ⟨other, hother, heq⟩)
      · exact h.space.apart vpn (show vpn < _ by omega) htable
      · have hsame := h.space.inj other hother.2 vpn (show vpn < _ by omega) heq
        have hlo : pages newsz ≤ other := hother.1
        omega
    · intro hfree
      exact hapartUser.apart _ hfree (Or.inr ⟨vpn, show vpn < _ by omega, rfl⟩)

/-- Growing carries all pages over, and the trapframe. -/
theorem Live.grow_carried (h : Live L m p frame user kern) (hapart : Apart m (owned m p))
    {newsz : ℕ} {m₁ : Machine} (hle : p.sz ≤ newsz) (hpos : 0 < newsz)
    (hplic : newsz ≤ L.plic * 4096) (halloc : uvmalloc m user p.sz newsz = .ok (newsz, m₁))
    (hcopy : kvmcopy L m₁ user kern p.sz newsz = .ok (true, m')) :
    Carried user m m' p.sz newsz ∧ m'.mem frame = m.mem frame := by
  have hsize := h.size_lt
  have hpages := pages_mono hle
  have hbound := L.plic_lt
  have hlast : pages newsz ≤ L.plic := by
    rw [pages]
    omega
  rw [h.owned_eq] at hapart
  have hapartUser : Apart m (held m.mem user (Set.Iio (pages p.sz))) :=
    hapart.mono (Set.subset_union_left.trans Set.subset_union_right)
  have hvacant : ∀ vpn, pages p.sz ≤ vpn → vpn < pages newsz → entry m.mem user vpn = 0 := by
    intro vpn hlo hhi
    exact h.user_vacant hlo (by rw [trapframe]; omega)
  rcases uvmalloc_spec h.space hapartUser hle (show newsz ≤ 2 ^ 38 by omega) hvacant with
    ⟨m₂, map, hok, hgrow, -, -, hin⟩ | ⟨m₂, added, hfail, -⟩
  · rw [halloc] at hok
    cases hok
    have hzero : ∀ vpn, pages p.sz ≤ vpn → vpn < pages newsz →
        m₁.mem (pte2pa (entry m₁.mem user vpn)) = fun _ => 0 :=
      fun vpn => uvmalloc_zeroed h.space hapartUser hle (show newsz ≤ 2 ^ 38 by omega) hvacant hpos
        halloc
    rw [Set.Iio_union_Ico_eq_Iio hpages] at hgrow
    obtain ⟨hsep₁, hmoves₁, hkern₁, hframe₁⟩ := h.change_user hapart hgrow.space hgrow.moves
    have hapart₁ := hmoves₁.keeps_apart hapart fun page hpage => h.page_lt hpage
    obtain ⟨hkeep, hframe⟩ := hsep₁.kvmcopy_keeps hapart₁ hle hplic (by omega)
      (fun vpn hlo hhi => by
        rw [entry_frame hkern₁]
        exact h.kern_vacant hlo (by omega))
      (fun vpn hvpn => by
        rw [entry_frame hkern₁]
        exact h.kern_valid hvpn) hcopy
    have hentry := entry_frame fun page hpage => hkeep page (Or.inl hpage)
    refine ⟨?_, hframe.trans hframe₁⟩
    intro vpn hvpn
    have htarget := hkeep _ (Or.inr ⟨vpn, hvpn, rfl⟩)
    rw [hentry]
    by_cases hold : vpn < pages p.sz
    · have hentry₁ : entry m₁.mem user vpn = entry m.mem user vpn := by
        rw [hgrow.entry_eq vpn (by omega), hgrow.same vpn hold]
      rw [hentry₁] at htarget
      exact Or.inl ⟨hold, hentry₁, htarget.trans (hgrow.keep vpn hold)⟩
    · refine Or.inr ⟨by omega, ?_, htarget.trans (hzero vpn (by omega) hvpn)⟩
      rw [hgrow.entry_eq vpn (by omega)]
      exact hin vpn ⟨by omega, hvpn⟩
  · rw [halloc] at hfail
    simp only [Except.ok.injEq, Prod.mk.injEq] at hfail
    omega

/-- A successful `growproc` carries the user memory over to the new size, and the
trapframe. -/
theorem Live.growproc_carried (h : Live L m p frame user kern) (hapart : Apart m (owned m p))
    {n : Int} (hlo : -2 ^ 31 ≤ n) (hhi : n < 2 ^ 31)
    (hgrow : growproc L m p n = .ok (true, p', m')) :
    p' = { p with sz := resized p.sz n } ∧ Live L m' p' frame user kern ∧
      Carried user m m' p.sz (resized p.sz n) ∧ m'.mem frame = m.mem frame := by
  have hsize := h.size_lt
  have hsz := u32_of_lt (show p.sz < 2 ^ 32 by omega)
  have hrefl : Carried user m m p.sz p.sz := fun vpn hvpn => Or.inl ⟨hvpn, rfl, rfl⟩
  have hunfold := hgrow
  rw [growproc, deref_of_eq h.pagetable, deref_of_eq h.kPagetable] at hunfold
  simp only [ok_bind, hsz] at hunfold
  by_cases hn : n ≤ 0
  · obtain ⟨m₃, hok, hlive, -⟩ := growproc_shrink h hapart hn hlo
    rw [hgrow] at hok
    cases hok
    refine ⟨rfl, hlive, ?_⟩
    rw [if_neg (by omega)] at hunfold
    by_cases hzero : n = 0
    · subst hzero
      rw [if_neg (by omega)] at hunfold
      have hresized : resized p.sz 0 = p.sz := by
        rw [resized, if_neg (by omega), Int.add_zero]
        rfl
      rw [hresized]
      cases hunfold
      exact ⟨hrefl, rfl⟩
    · rw [if_pos (by omega)] at hunfold
      obtain ⟨⟨sz₁, m₁⟩, huser, hunfold⟩ := bind_eq_ok hunfold
      obtain ⟨⟨sz₂, m₂⟩, hkern, hunfold⟩ := bind_eq_ok hunfold
      obtain rfl : m₂ = m' := (Prod.ext_iff.mp (Prod.ext_iff.mp (Except.ok.inj hunfold)).2).2
      by_cases hsum : (p.sz : Int) + n < 0
      · -- Both sums wrap around to a size that is larger than the old one.
        have hwrap : p.sz ≤ u32 (p.sz + n) := by
          rw [u32]
          omega
        have hwrap' : p.sz ≤ u64 (p.sz + n) := by
          rw [u64]
          omega
        rw [uvmdealloc, dealloc_of_le _ hwrap] at huser
        cases huser
        rw [kvmdealloc, dealloc_of_le _ hwrap'] at hkern
        cases hkern
        rw [resized, if_pos hsum]
        exact ⟨hrefl, rfl⟩
      · obtain ⟨newsz, hnewsz⟩ := Int.eq_ofNat_of_zero_le (show 0 ≤ (p.sz : Int) + n by omega)
        rw [hnewsz, u32_of_lt (show newsz < 2 ^ 32 by omega)] at huser
        rw [hnewsz, u64_of_lt (show newsz < 2 ^ 64 by omega)] at hkern
        rw [resized, if_neg hsum, hnewsz]
        exact h.shrink_carried hapart (by omega) huser hkern
  · obtain ⟨k, rfl⟩ := Int.eq_ofNat_of_zero_le (show 0 ≤ n by omega)
    have hresized : resized p.sz k = p.sz + k := by
      rw [resized, if_neg (by omega), ← Nat.cast_add]
      rfl
    rw [hresized]
    rcases growproc_grow h hapart (show 0 < k by omega) (by omega) with
      ⟨m₃, hok, hplic, hlive, -⟩ | ⟨m₃, hfail, -⟩ | ⟨m₃, vpn, hfail, -⟩
    · rw [hgrow] at hok
      cases hok
      refine ⟨rfl, hlive, ?_⟩
      rw [if_pos (by omega), ← Nat.cast_add, u32_of_lt (show p.sz + k < 2 ^ 32 by omega),
        u64_of_lt (show p.sz + k < 2 ^ 64 by omega)] at hunfold
      obtain ⟨⟨sz₁, m₁⟩, halloc, hunfold⟩ := bind_eq_ok hunfold
      dsimp only at hunfold
      split at hunfold
      · cases hunfold
      · rename_i hne
        obtain ⟨⟨ok, m₂⟩, hcopy, hunfold⟩ := bind_eq_ok hunfold
        cases ok with
        | false => cases hunfold
        | true =>
            obtain rfl : m₂ = m' := (Prod.ext_iff.mp (Prod.ext_iff.mp (Except.ok.inj hunfold)).2).2
            rcases uvmalloc_size (Nat.le_add_right _ _) (by omega) halloc with rfl | rfl
            · exact h.grow_carried hapart (Nat.le_add_right _ _) (by omega) hplic halloc hcopy
            · exact absurd rfl hne
    · rw [hgrow] at hfail
      cases hfail
    · rw [hgrow] at hfail
      cases hfail

end Growproc

section Fork

variable {L : Layout} {s s' : Kernel} {i pid frame user kern : ℕ}

theorem copyTrapframe_same (m : Machine) (frame frame' : ℕ) {k : Fin 512} (hk : k.val < 36) :
    (copyTrapframe m frame frame').mem frame' k = if k = a0 then 0 else m.mem frame k := by
  rw [copyTrapframe, store_same, fill_same, if_pos hk]

/-- A process that `fork` has made: its saved registers are those of its parent, but that the
call returns 0. -/
theorem fork_child (h : Vacancies L s) (hlive : Live L s.machine (s.proc i) frame user kern)
    (hparent : Apart s.machine (owned s.machine (s.proc i)))
    (hfork : fork L s i = .ok (some pid, s')) :
    ∃ j np m' frame', s' = s.enter j np m' ∧ j < L.nproc ∧ Idle (s.proc j) ∧
      Forked L s i j m' np user ∧ np.state = .runnable ∧ np.trapframe = some frame' ∧
      ∀ k : Fin 512, k.val < 36 →
        m'.mem frame' k = if k = a0 then 0 else s.machine.mem frame k := by
  rcases allocproc_spec h with ⟨-, halloc⟩ | ⟨j, -, hj, hidle, ⟨-, p, m', halloc, -⟩ |
    ⟨-, -, e, halloc⟩ | ⟨m₁, frame', user', kern', halloc, hfresh⟩⟩
  · rw [fork, halloc] at hfork
    cases hfork
  · rw [fork, halloc] at hfork
    cases hfork
  · rw [fork, halloc] at hfork
    cases hfork
  · have hne : i ≠ j := by
      rintro rfl
      exact hlive.state hidle.state
    have hpagetable := deref_of_eq hlive.pagetable
    have hframe := deref_of_eq hlive.trapframe
    rw [fork, halloc] at hfork
    simp only [ok_bind, Kernel.enter_self, Kernel.enter_of_ne hne, Kernel.enter_set, hpagetable,
      hframe] at hfork
    change (Vm.uvmcopy m₁ user user' (s.proc i).sz >>= _) = _ at hfork
    rcases h.fork_fresh hj hidle hlive hparent hfresh with
      ⟨m₂, m₃, m', hcopy, hmirror, rfl, -, hforked⟩ | ⟨m₂, m', hcopy, hfree, -⟩ |
      ⟨m₂, m₃, e, hcopy, hmirror, hpanic, -⟩
    · simp only [hcopy, ok_bind, Bool.true_eq_false, if_false] at hfork
      change (kvmcopy L m₂ user' kern' 0 (s.proc i).sz >>= _) = _ at hfork
      simp only [hmirror, ok_bind, Bool.true_eq_false, if_false] at hfork
      cases hfork
      refine ⟨j, _, _, frame', rfl, hj, hidle, hforked, rfl, rfl, ?_⟩
      intro k hk
      -- The trapframe of the parent was in use all the time.
      have hmine : frame ∈ owned s.machine (s.proc i) := Or.inl hlive.trapframe
      have hnotfree : frame ∉ s.machine.free := fun hmem => hparent.apart frame hmem hmine
      have hsame := hforked.moves.frame frame (Set.notMem_empty frame) hnotfree
      have hdiffer : frame ≠ frame' := by
        rintro rfl
        have htaken := (hforked.moves.conserve frame).mp (Or.inl (Or.inl rfl))
        exact htaken.elim (Set.notMem_empty frame) hnotfree
      rw [copyTrapframe_of_ne m₃ frame hdiffer] at hsame
      rw [copyTrapframe_same m₃ frame frame' hk, hsame]
    · simp only [hcopy, ok_bind, if_true, hfree] at hfork
      cases hfork
    · simp only [hcopy, ok_bind, Bool.true_eq_false, if_false] at hfork
      change (kvmcopy L m₂ user' kern' 0 (s.proc i).sz >>= _) = _ at hfork
      simp only [hmirror, ok_bind, if_true, hpanic, error_bind] at hfork
      cases hfork

end Fork

section Userinit

variable {L : Layout} {s s' : Kernel} {m m' : Machine} {root : ℕ}

theorem byteAt_zero (ofs : ℕ) : byteAt (fun _ => 0) ofs = 0 := by
  rw [byteAt]
  simp

/-- The page that `uvminit` maps holds the program and zeros behind it. -/
theorem uvminit_content (h : Space m.mem root ∅) (hapart : Apart m (held m.mem root ∅))
    (hvacant : entry m.mem root 0 = 0) {src : List (BitVec 8)} (hsrc : src.length < pgSize)
    (hinit : uvminit m root src = .ok m') (hvalid : Valid (entry m'.mem root 0)) {ofs : ℕ}
    (hofs : ofs < pgSize) :
    byteAt (m'.mem (pte2pa (entry m'.mem root 0))) ofs = src.getD ofs 0 := by
  have hnot : ¬ Valid (entry m.mem root 0) := by
    rw [hvacant]
    exact not_valid_zero
  have hperm : pteW ||| pteR ||| pteX ||| pteU = userPerm := by decide
  rw [uvminit, if_neg (Nat.not_le_of_lt hsrc), hperm] at hinit
  rcases acquire_spec h hapart (show 0 < 2 ^ 26 by decide) hnot (fun _ => 0)
    (show userPerm.toNat < 2 ^ 10 by decide) (show Leaf userPerm by decide) with
    ⟨page, m₁, m₂, hkalloc, hmap, hgrow, -, hcontent, -, hbound, -⟩ | ⟨hkalloc, -⟩ |
    ⟨page, m₁, m₂, added, hkalloc, hmap, hback, -, hshort, -⟩
  · rw [hkalloc] at hinit
    simp only [Machine.zero] at hinit
    rw [Nat.mul_zero] at hmap
    rw [hmap] at hinit
    cases hinit
    have htarget : pte2pa (entry m₂.mem root 0) = page := by
      rw [hgrow.entry_eq 0 (by decide), Function.update_self, BitVec.or_assoc]
      exact pte2pa_entry hbound (by decide)
    have hframe : ∀ table ∈ tables m₂.mem root, (m₂.write page 0 src).mem table = m₂.mem table := by
      intro table htable
      apply write_of_ne
      rintro rfl
      exact hgrow.space.apart 0 (Or.inl rfl) (htarget ▸ htable)
    rw [pgSize] at hsrc hofs
    rw [entry_frame hframe, htarget, byteAt_write (by omega) hofs, hcontent, ByteStore.overwrite,
      if_pos (Nat.zero_le ofs), Nat.sub_zero, byteAt_zero, List.getD_eq_getElem?_getD]
  · rw [hkalloc] at hinit
    cases hinit
  · rw [hkalloc] at hinit
    simp only [Machine.zero] at hinit
    rw [Nat.mul_zero] at hmap
    rw [hmap] at hinit
    cases hinit
    have hsame : ∀ table ∈ tables (m₂.kfree page).mem root,
        (m₂.write page 0 src).mem table = (m₂.kfree page).mem table := by
      intro table htable
      have hne : table ≠ page := by
        rintro rfl
        exact hback.moves.apart table (List.mem_cons_self ..) (Or.inl htable)
      rw [write_of_ne hne]
      exact (fill_of_ne _ _ hne).symm
    rw [entry_frame hsame, hback.entry_eq 0 (by decide)] at hvalid
    exact absurd hvalid hnot

/-- After the calls that `userinit` makes, page 0 is the user's and holds `initcode`. -/
theorem Vacancies.initcode_page (h : Vacancies L s) {j frame user kern : ℕ} {m₁ m₂ m₃ : Machine}
    (hj : j < L.nproc) (hidle : Idle (s.proc j))
    (hfresh : Fresh L s.machine m₁ (embryo (s.proc j) s.nextpid frame user kern) frame user kern)
    (huser : uvminit m₁ user initcode = .ok m₂)
    (hcopy : kvmcopy L m₂ user kern 0 pgSize = .ok (true, m₃))
    (hm' : m' = (m₃.store frame epc 0).store frame sp (BitVec.ofNat 64 pgSize)) :
    entry m'.mem user 0 &&& pteU ≠ 0 ∧
      ∀ va, va < pgSize → mappedByte m' user va = initcode.getD va 0 := by
  obtain ⟨hstack, hspace, hapart, hvacant⟩ := h.fresh_space hj hidle hfresh
  have hsrc : initcode.length < pgSize := by decide
  rcases uvminit_spec hspace hapart hvacant hsrc with
    ⟨m₂', map, huser', hchange, -, hflags, hout⟩ | ⟨⟨e, herror⟩ | ⟨m₂', huser', hunmapped⟩, -⟩
  · rw [huser] at huser'
    cases huser'
    have hone : pages pgSize = 1 := by decide
    obtain ⟨ok, m₃', hcopy', hkeep, hsep₃, -⟩ := hfresh.furnish h.free hstack hchange.space
      hchange.moves (by
        intro vpn hlo hhi
        rw [hchange.entry_eq vpn hhi, hout vpn (by omega)]
        exact hfresh.userRest vpn (by rw [hfresh.empty, pages]; omega) hhi) (by decide)
    rw [hcopy] at hcopy'
    cases hcopy'
    -- The two stores go to the trapframe, which is no page of the user memory.
    have hstored : ∀ page ∈ held m₂.mem user (Set.Iio (pages pgSize)),
        m'.mem page = m₂.mem page := by
      intro page hpage
      have hne : page ≠ frame := by
        rintro rfl
        apply hsep₃.frame_apart
        rw [held_frame fun page hpage => hkeep page (Or.inl hpage)]
        exact Or.inl hpage
      rw [hm', store_of_ne _ _ _ hne, store_of_ne _ _ _ hne, hkeep page hpage]
    have hentry : entry m'.mem user 0 = entry m₂.mem user 0 :=
      entry_frame (fun page hpage => hstored page (Or.inl hpage)) 0
    have hmapped : 0 ∈ Set.Iio (pages pgSize) := by
      rw [hone]
      exact Nat.zero_lt_one
    constructor
    · rw [hentry, hchange.entry_eq 0 (by decide)]
      exact user_of_flags hflags
    · intro va hva
      rw [mappedByte, Nat.div_eq_of_lt hva, Nat.mod_eq_of_lt hva, hentry,
        hstored _ (Or.inr ⟨0, hmapped, rfl⟩)]
      exact uvminit_content hspace hapart hvacant hsrc huser (hchange.space.mapped 0 hmapped) hva
  · rw [huser] at herror
    cases herror
  · rw [huser] at huser'
    cases huser'
    exact absurd hcopy (kvmcopy_unmapped L hunmapped m₃)

/-- The first process: its memory is the page with `initcode`, and it starts at address 0 with
its stack at the end of the page. -/
theorem userinit_first (h : Vacancies L s) (hinit : userinit L s = .ok (true, s')) :
    ∃ j np m' frame user kern, s' = { s.enter j np m' with initproc := some j } ∧ j < L.nproc ∧
      Idle (s.proc j) ∧ np.state = .runnable ∧ np.sz = pgSize ∧
      Live L m' np frame user kern ∧ m'.mem frame epc = 0 ∧
      m'.mem frame sp = BitVec.ofNat 64 pgSize ∧ entry m'.mem user 0 &&& pteU ≠ 0 ∧
      ∀ va, va < pgSize → mappedByte m' user va = initcode.getD va 0 := by
  rcases allocproc_spec h with ⟨-, halloc⟩ | ⟨j, -, hj, hidle, ⟨-, p, m', halloc, -⟩ |
    ⟨-, -, e, halloc⟩ | ⟨m₁, frame, user, kern, halloc, hfresh⟩⟩
  · rw [userinit, halloc] at hinit
    cases hinit
  · rw [userinit, halloc] at hinit
    cases hinit
  · rw [userinit, halloc] at hinit
    cases hinit
  · rw [userinit_eq halloc] at hinit
    obtain ⟨m₂, huser, hinit⟩ := bind_eq_ok hinit
    obtain ⟨⟨ok, m₃⟩, hcopy, hinit⟩ := bind_eq_ok hinit
    cases ok with
    | false => cases hinit
    | true =>
        cases hinit
        rcases h.userinit_fresh hj hidle hfresh with ⟨m₂', m₃', m', huser', hcopy', rfl, -, hdone⟩ |
          ⟨hnot, -⟩
        · rw [huser] at huser'
          cases huser'
          rw [hcopy] at hcopy'
          cases hcopy'
          obtain ⟨hlive, -, -⟩ := hdone (first (s.proc j) s.nextpid frame user kern)
            (show ProcState.runnable ≠ .unused by decide) rfl rfl rfl rfl rfl rfl
          refine ⟨j, _, _, frame, user, kern, rfl, hj, hidle, rfl, rfl, hlive, ?_, ?_,
            h.initcode_page hj hidle hfresh huser hcopy rfl⟩
          · rw [store_same, if_neg (by decide), store_same, if_pos rfl]
          · rw [store_same, if_pos rfl]
        · exact absurd hcopy (hnot m₂ huser m₃)

end Userinit

end OperateSystem.Vm

import OperateSystem.Vm.Image

/-!
# The new image takes the place of the old one

The last part of `exec`: the mirror of the old user memory is unmapped, that of the
new one is installed, and the old page table is freed.  Up to that point the process
has kept all it owns, since the image has been made from free pages.
-/

namespace OperateSystem.Vm

open OperateSystem.PointerTree

/-- The process after its image has been replaced by the one that `exec` has made in `m`
from the free pages of `m₀`. -/
structure Committed (L : Layout) (m₀ m m' : Machine) (p p' : Proc) (frame root kern sp entry : ℕ) :
    Prop where
  live : Live L m' p' frame root kern
  moves : Moves (owned m₀ p) (owned m' p') m₀ m'
  keep : ∀ page ∈ held m.mem root (Set.Iio (pages p'.sz)), m'.mem page = m.mem page
  a1_eq : m'.mem frame a1 = BitVec.ofNat 64 sp
  sp_eq : m'.mem frame Vm.sp = BitVec.ofNat 64 sp
  epc_eq : m'.mem frame epc = BitVec.ofNat 64 entry

section Print

variable {m : Machine}

theorem foldlM_ok {α : Type} {f : Unit → α → Except Fault Unit} {xs : List α}
    (h : ∀ x ∈ xs, f () x = .ok ()) : xs.foldlM f () = .ok () := by
  induction xs with
  | nil => rfl
  | cons x xs ih =>
      rw [List.foldlM_cons, h x (by simp), ok_bind]
      exact ih fun x' hx' => h x' (by simp [hx'])

/-- `vmprint` gets to the end of every table. -/
theorem vmprint_ok {depth root : ℕ} (h : Shape depth m.mem root) :
    vmprint m (depth + 1) root = .ok () := by
  induction depth generalizing root with
  | zero =>
      rw [vmprint]
      apply foldlM_ok
      intro i _
      rw [if_neg]
      rintro ⟨hvalid, hleaf⟩
      exact hleaf (h.leaf [] root i rfl rfl hvalid)
  | succ depth ih =>
      rw [vmprint]
      apply foldlM_ok
      intro i _
      dsimp only
      split
      · rename_i hinner
        exact ih (h.subtable (next_of_valid hinner.1))
      · rfl

end Print

section Separate

variable {m : Machine} {frame user kern : ℕ} {S : Set ℕ}

/-- Writing to the trapframe leaves the other parts alone. -/
theorem Separate.touch_frame (h : Separate m frame user kern S)
    (hapart : Apart m (holding m frame user kern S)) (m' : Machine) (hfree : m'.free = m.free)
    (hother : ∀ page, page ≠ frame → m'.mem page = m.mem page) :
    Separate m' frame user kern S ∧
      Moves (holding m frame user kern S) (holding m' frame user kern S) m m' ∧
      ∀ page ∈ held m.mem user S ∪ tables m.mem kern, m'.mem page = m.mem page := by
  have hsame : ∀ page ∈ held m.mem user S ∪ tables m.mem kern, m'.mem page = m.mem page := by
    intro page hpage
    apply hother
    rintro rfl
    exact h.frame_apart hpage
  have huser : ∀ page ∈ tables m.mem user, m'.mem page = m.mem page :=
    fun page hpage => hsame page (Or.inl (Or.inl hpage))
  have hkern : ∀ page ∈ tables m.mem kern, m'.mem page = m.mem page :=
    fun page hpage => hsame page (Or.inr hpage)
  refine ⟨⟨h.space.frame huser, h.table.frame hkern, h.frame_lt, ?_, ?_⟩, ?_, hsame⟩
  · rw [held_frame huser, tables_frame hkern]
    exact h.frame_apart
  · rw [held_frame huser, tables_frame hkern]
    exact h.disjoint
  · rw [holding, holding, held_frame huser, tables_frame hkern]
    apply Moves.touch hapart hfree
    intro page hpage
    apply hother
    rintro rfl
    exact hpage (Or.inl rfl)

end Separate

section Commit

variable {L : Layout} {m₀ m : Machine} {p : Proc} {frame user kern root sz : ℕ} {guard : Set ℕ}

/-- Before the commit the process owns what it has owned before `exec`, apart from the
image. -/
theorem Image.beside (h : Image L m₀ m frame root sz guard) (hlive : Live L m₀ p frame user kern)
    (hapart : Apart m₀ (owned m₀ p)) :
    Live L m p frame user kern ∧ owned m p = owned m₀ p ∧
      Away (owned m p) (held m.mem root (Set.Iio (pages sz))) m ∧
      Moves (owned m₀ p) (held m.mem root (Set.Iio (pages sz)) ∪ owned m p) m₀ m := by
  have haway : Away (owned m₀ p) ∅ m₀ := fun page hpage =>
    ⟨Set.notMem_empty page, fun hfree => hapart.apart page hfree hpage⟩
  obtain ⟨haway', hsame⟩ := h.moves.away haway
  have htables : ∀ page ∈ tables m₀.mem user ∪ tables m₀.mem kern, m.mem page = m₀.mem page :=
    fun page hpage => hsame page (hlive.tables_subset hpage)
  have howned := hlive.owned_frame htables
  have hextend := h.moves.extend haway
  rw [Set.empty_union] at hextend
  rw [howned]
  exact ⟨hlive.stable htables, rfl, haway', hextend⟩

/-- Nor has it got other tables. -/
theorem Image.kernNeed_eq (h : Image L m₀ m frame root sz guard)
    (hlive : Live L m₀ p frame user kern) (hapart : Apart m₀ (owned m₀ p)) (newsz : ℕ) :
    kernNeed m kern 0 newsz = kernNeed m₀ kern 0 newsz := by
  rw [kernNeed, kernNeed, missing_frame]
  intro page hpage
  apply h.moves.frame page (Set.notMem_empty page)
  intro hfree
  exact hapart.apart page hfree (hlive.tables_subset (Or.inr hpage))

/-- The new image, the trapframe and the kernel page table, with the old memory beside
them. -/
theorem Image.separate (h : Image L m₀ m frame root sz guard)
    (hlive : Live L m₀ p frame user kern) (hapart : Apart m₀ (owned m₀ p)) :
    Separate m frame root kern (Set.Iio (pages sz)) ∧
      Apart m (holding m frame root kern (Set.Iio (pages sz))) ∧
      Away (held m.mem user (Set.Iio (pages p.sz)))
        (holding m frame root kern (Set.Iio (pages sz))) m ∧
      holding m frame root kern (Set.Iio (pages sz)) ∪ held m.mem user (Set.Iio (pages p.sz))
        = held m.mem root (Set.Iio (pages sz)) ∪ owned m p := by
  obtain ⟨hlive', -, haway, -⟩ := h.beside hlive hapart
  have howned := hlive'.owned_eq
  have hout : ∀ page ∈ owned m p, page ∉ held m.mem root (Set.Iio (pages sz)) :=
    fun page hpage => (haway page hpage).1
  rw [howned] at haway hout
  have hfree := h.apart
  refine ⟨⟨h.space, hlive'.table, hlive'.frame_lt, ?_, ?_⟩,
    ⟨hfree.nodup, ?_, hfree.bounded⟩, ?_, ?_⟩
  · rintro (hpage | hpage)
    · exact hout frame (Or.inl rfl) hpage
    · exact hlive'.frame_apart (Or.inr hpage)
  · rw [Set.disjoint_left]
    intro page hpage hkern
    exact hout page (Or.inr (Or.inr hkern)) hpage
  · rintro page hpage (rfl | hheld | hkern)
    · exact (haway page (Or.inl rfl)).2 hpage
    · exact hfree.apart page hpage hheld
    · exact (haway page (Or.inr (Or.inr hkern))).2 hpage
  · intro page hpage
    refine ⟨?_, (haway page (Or.inr (Or.inl hpage))).2⟩
    rintro (rfl | hheld | hkern)
    · exact hlive'.frame_apart (Or.inl hpage)
    · exact hout page (Or.inr (Or.inl hpage)) hheld
    · exact Set.disjoint_left.mp hlive'.disjoint hpage hkern
  · rw [howned, holding, holding]
    ext page
    simp only [Set.mem_union, Set.mem_singleton_iff]
    tauto

/-- The kernel page table without the mirror of the old user memory. -/
theorem Live.kern_cleared (hlive : Live L m p frame user kern) {vpn : ℕ} (hvpn : vpn < 2 ^ 26) :
    clearMap (entry m.mem kern) 0 (pages p.sz) vpn = kernelMap L p.kstack p.kstackPa vpn := by
  have hplic := hlive.pages_le
  rw [clearMap]
  by_cases hin : vpn < pages p.sz
  · rw [if_pos ⟨Nat.zero_le _, by omega⟩, kernelMap_low L hlive.stack (by omega)]
  · rw [if_neg (by omega)]
    exact hlive.kernRest vpn (by omega) hvpn

theorem kernNeed_le (m : Machine) (kern sz : ℕ) : kernNeed m kern 0 sz ≤ 2 * pages sz := by
  have hcard := card_missing_le_mul m.mem kern (newVpns 0 sz)
  have hnew : (newVpns 0 sz).card = pages sz := by
    rw [newVpns, Nat.card_Ico, show pages 0 = 0 from rfl, Nat.sub_zero]
  rw [hnew] at hcard
  rw [kernNeed]
  omega

/-- `kvmdealloc` of the old mirror and `kvmcopy` of the new one. -/
theorem remirror_spec {m₁ : Machine} (hlive : Live L m p frame user kern)
    (hkern : ∀ page ∈ tables m.mem kern, m₁.mem page = m.mem page)
    (hsep : Separate m₁ frame root kern (Set.Iio (pages sz)))
    (hapart : Apart m₁ (holding m₁ frame root kern (Set.Iio (pages sz)))) (hsz : sz ≤ 2 ^ 38) :
    ∃ m₂ m₃ n ok, kvmdealloc m₁ kern p.sz 0 = .ok (n, m₂) ∧
      kvmcopy L m₂ root kern 0 sz = .ok (ok, m₃) ∧
      Separate m₃ frame root kern (Set.Iio (pages sz)) ∧
      Moves (holding m₁ frame root kern (Set.Iio (pages sz)))
        (holding m₃ frame root kern (Set.Iio (pages sz))) m₁ m₃ ∧
      (∀ page ∈ held m₁.mem root (Set.Iio (pages sz)), m₃.mem page = m₁.mem page) ∧
      m₃.mem frame = m₁.mem frame ∧
      (ok = true → sz ≤ L.plic * 4096 ∧
        (∀ vpn, vpn < pages sz → entry m₃.mem kern vpn = mirrorWord (entry m₃.mem root vpn)) ∧
        ∀ vpn, pages sz ≤ vpn → vpn < 2 ^ 26 →
          entry m₃.mem kern vpn = kernelMap L p.kstack p.kstackPa vpn) ∧
      (if ok then m₁.free.length = m₃.free.length + kernNeed m₁ kern 0 sz
        else L.plic * 4096 < sz ∨ m₁.free.length < kernNeed m₁ kern 0 sz) := by
  have hsize := hlive.size_lt
  have hplic := L.plic_lt
  have hentry₁ := entry_frame hkern
  have hready₁ : Ready m₁ kern :=
    ⟨hapart.mono (Set.subset_union_right.trans Set.subset_union_right), hsep.table⟩
  obtain ⟨m₂, hdealloc, hfree₂, hedit₂⟩ := kvmdealloc_spec hready₁ (show p.sz < 2 ^ 37 by omega)
    (show 0 < 2 ^ 37 by decide) (by
      intro vpn _ hvpn
      rw [hentry₁]
      exact hlive.kern_valid hvpn)
  obtain ⟨hsep₂, hmoves₂, huser₂, hframe₂⟩ := hsep.change_kern hapart hedit₂.table hedit₂.moves
  have hapart₂ := hmoves₂.keeps_apart hapart fun page hpage => hsep.page_lt hpage
  have hkern₂ : ∀ vpn, vpn < 2 ^ 26 →
      entry m₂.mem kern vpn = kernelMap L p.kstack p.kstackPa vpn := by
    intro vpn hvpn
    rw [hedit₂.entry_eq vpn hvpn, ← hlive.kern_cleared hvpn]
    simp only [clearMap, hentry₁, show pages 0 = 0 from rfl, Nat.sub_zero]
  by_cases hlimit : sz ≤ L.plic * 4096
  · have hready₂ : Ready m₂ kern :=
      ⟨hapart₂.mono (Set.subset_union_right.trans Set.subset_union_right), hsep₂.table⟩
    have haway₂ : Away (tables m₂.mem root) (tables m₂.mem kern) m₂ := by
      intro page hpage
      exact ⟨fun hmem => Set.disjoint_left.mp hsep₂.disjoint (Or.inl hpage) hmem,
        fun hfree => hapart₂.apart page hfree (Or.inr (Or.inl (Or.inl hpage)))⟩
    have hlast : pages sz ≤ L.plic := by
      rw [pages]
      omega
    have hnone : pages 0 = 0 := rfl
    have hneed : (missing m₂.mem kern (Finset.Ico (pages 0) (pages sz))).card
        = kernNeed m₁ kern 0 sz := by
      rw [hedit₂.toAdds.missing_eq, Finset.sdiff_empty]
      rfl
    rcases kvmcopy_spec L hready₂ hsep₂.space.table haway₂ (Nat.zero_le sz) hlimit hsz
      (fun vpn _ hvpn => hsep₂.space.mapped vpn hvpn)
      (fun vpn _ hvpn => by
        rw [hkern₂ vpn (by omega), kernelMap_low L hlive.stack (by omega)])
      (fun vpn hvpn => absurd hvpn (Nat.not_lt_zero _)) with
      ⟨m₃, hcopy, hedit₃⟩ | ⟨m₃, added, hcopy, hedit₃, hshort⟩
    · obtain ⟨hsep₃, hmoves₃, huser₃, hframe₃⟩ :=
        hsep₂.change_kern hapart₂ hedit₃.table hedit₃.moves
      have hroot₃ : ∀ vpn, entry m₃.mem root vpn = entry m₂.mem root vpn :=
        entry_frame fun page hpage => huser₃ page (Or.inl hpage)
      refine ⟨m₂, m₃, _, true, hdealloc, hcopy, hsep₃, hmoves₂.trans hmoves₃, ?_,
        hframe₃.trans hframe₂, fun _ => ⟨hlimit, ?_, ?_⟩, ?_⟩
      · intro page hpage
        rw [huser₃ page, huser₂ page hpage]
        rw [held_frame fun page hpage => huser₂ page (Or.inl hpage)]
        exact hpage
      · intro vpn hvpn
        rw [hedit₃.entry_eq vpn (by omega), mirrorMap, if_pos (by omega), hroot₃]
      · intro vpn hlo hhi
        rw [hedit₃.entry_eq vpn hhi, mirrorMap, if_neg (by omega), hkern₂ vpn hhi]
      · have hcount := hedit₃.count
        rw [hfree₂, hneed] at hcount
        exact hcount
    · obtain ⟨hsep₃, hmoves₃, huser₃, hframe₃⟩ :=
        hsep₂.change_kern hapart₂ hedit₃.table hedit₃.moves
      refine ⟨m₂, m₃, _, false, hdealloc, hcopy, hsep₃, hmoves₂.trans hmoves₃, ?_,
        hframe₃.trans hframe₂, fun hok => (by cases hok), Or.inr ?_⟩
      · intro page hpage
        rw [huser₃ page, huser₂ page hpage]
        rw [held_frame fun page hpage => huser₂ page (Or.inl hpage)]
        exact hpage
      · rw [hfree₂, hneed] at hshort
        exact hshort
  · refine ⟨m₂, m₂, _, false, hdealloc, ?_, hsep₂, hmoves₂, huser₂, hframe₂,
      fun hok => (by cases hok), Or.inl (by omega)⟩
    rw [kvmcopy, if_pos (by rw [pgSize]; omega)]

/-- Once the new mirror is in place, freeing the old page table completes the
commit. -/
theorem Image.replace {m₄ : Machine} (name : List Char) (sp entry : ℕ)
    (h : Image L m₀ m frame root sz guard) (hlive : Live L m₀ p frame user kern)
    (hapart : Apart m₀ (owned m₀ p)) (hsep : Separate m₄ frame root kern (Set.Iio (pages sz)))
    (hmoves : Moves (holding m frame root kern (Set.Iio (pages sz)))
      (holding m₄ frame root kern (Set.Iio (pages sz))) m m₄)
    (hkeep : ∀ page ∈ held m.mem root (Set.Iio (pages sz)), m₄.mem page = m.mem page)
    (hsize : sz ≤ L.plic * 4096)
    (hmirror : ∀ vpn, vpn < pages sz →
      Vm.entry m₄.mem kern vpn = mirrorWord (Vm.entry m₄.mem root vpn))
    (hrest : ∀ vpn, pages sz ≤ vpn → vpn < 2 ^ 26 →
      Vm.entry m₄.mem kern vpn = kernelMap L p.kstack p.kstackPa vpn)
    (ha1 : m₄.mem frame a1 = BitVec.ofNat 64 sp) (hsp : m₄.mem frame Vm.sp = BitVec.ofNat 64 sp)
    (hepc : m₄.mem frame epc = BitVec.ofNat 64 entry) :
    ∃ m', procFreeuserpagetable m₄ user p.sz = .ok m' ∧
      Committed L m₀ m m' p { p with name := name, pagetable := some root, sz := sz } frame root
        kern sp entry := by
  obtain ⟨hlive', -, -, hbeside⟩ := h.beside hlive hapart
  obtain ⟨hsepNew, hapartNew, haway, hunion⟩ := h.separate hlive hapart
  have hpages := hlive'.pages_le
  have hplic := L.plic_lt
  have hsmall := hlive'.size_lt
  -- The old memory has not been touched.
  obtain ⟨haway₄, hsame₄⟩ := hmoves.away haway
  have htables₄ : ∀ page ∈ tables m.mem user, m₄.mem page = m.mem page :=
    fun page hpage => hsame₄ page (Or.inl hpage)
  have hheld₄ := held_frame (S := Set.Iio (pages p.sz)) htables₄
  have hextend := hmoves.extend haway
  have hbounds : ∀ page ∈ holding m frame root kern (Set.Iio (pages sz))
      ∪ held m.mem user (Set.Iio (pages p.sz)), page < 2 ^ 52 := by
    rintro page (hpage | hpage)
    · exact hsepNew.page_lt hpage
    · exact hlive'.space.page_lt hpage
  have hapartAll : Apart m (holding m frame root kern (Set.Iio (pages sz))
      ∪ held m.mem user (Set.Iio (pages p.sz))) := by
    refine ⟨hapartNew.nodup, ?_, hapartNew.bounded⟩
    rintro page hfree (hpage | hpage)
    · exact hapartNew.apart page hfree hpage
    · exact (haway page hpage).2 hfree
  have hapart₄ := hextend.keeps_apart hapartAll hbounds
  rw [Set.union_comm] at hapart₄
  obtain ⟨m', hfree, hmoves'⟩ := procFreeuserpagetable_spec
    (show pages p.sz ≤ Vm.trapframe by rw [Vm.trapframe]; omega) (show p.sz < 2 ^ 63 by omega)
    (hlive'.space.frame htables₄) (by
      rw [hheld₄]
      exact hapart₄.mono Set.subset_union_left) (by
      intro vpn hlo hhi
      rw [entry_frame htables₄]
      exact hlive'.userRest vpn hlo hhi)
  rw [hheld₄] at hmoves'
  -- Freeing it does not touch the new one.
  have haway' := hapart₄.away (Set.disjoint_left.mpr fun page hpage => (haway₄ page hpage).1)
  obtain ⟨-, hsame'⟩ := hmoves'.away haway'
  have hroot₄ : ∀ page ∈ tables m.mem root, m₄.mem page = m.mem page :=
    fun page hpage => hkeep page (Or.inl hpage)
  have hlive₄ : Live L m₄ { p with name := name, pagetable := some root, sz := sz } frame root
      kern := by
    refine ⟨⟨hsep, hlive.trapframe, rfl, hlive.kPagetable, ?_⟩, hlive.state, hlive.stack, hsize,
      hmirror, hrest⟩
    intro vpn hlo hhi
    rw [entry_frame hroot₄]
    exact h.rest vpn hlo hhi
  have htables' : ∀ page ∈ tables m₄.mem root ∪ tables m₄.mem kern, m'.mem page = m₄.mem page := by
    rintro page (hpage | hpage)
    · exact hsame' page (Or.inr (Or.inl (Or.inl hpage)))
    · exact hsame' page (Or.inr (Or.inr hpage))
  have howned' := (hlive₄.owned_frame htables').trans hlive₄.owned_eq
  have hframe' := hsame' frame (Or.inl rfl)
  refine ⟨m', hfree, hlive₄.stable htables', ?_, ?_, ?_, ?_, ?_⟩
  · have hback := hmoves'.extend haway'
    rw [Set.empty_union, Set.union_comm] at hback
    rw [hunion] at hextend
    rw [howned']
    exact (hbeside.trans hextend).trans hback
  · intro page hpage
    rw [hsame' page, hkeep page hpage]
    refine Or.inr (Or.inl ?_)
    rw [held_frame hroot₄]
    exact hpage
  · rw [hframe']
    exact ha1
  · rw [hframe']
    exact hsp
  · rw [hframe']
    exact hepc

/-- The commit succeeds when there are pages for the mirror of the new image; otherwise the
image is given back. -/
theorem Image.execCommit (h : Image L m₀ m frame root sz guard)
    (hlive : Live L m₀ p frame user kern) (hapart : Apart m₀ (owned m₀ p)) (sp entry argc : ℕ)
    (path : List Char) :
    (∃ m', execCommit L m p root sz sp entry argc path = .ok (some argc,
        { p with name := safestrcpy (baseName path), pagetable := some root, sz := sz }, m') ∧
      Committed L m₀ m m' p
        { p with name := safestrcpy (baseName path), pagetable := some root, sz := sz } frame root
        kern sp entry ∧
      sz ≤ L.plic * 4096 ∧ kernNeed m₀ kern 0 sz ≤ m.free.length) ∨
    ((∃ m', execCommit L m p root sz sp entry argc path = .ok (none,
        { p with name := safestrcpy (baseName path), pagetable := some root }, m')) ∧
      (L.plic * 4096 < sz ∨ m.free.length < kernNeed m₀ kern 0 sz)) := by
  obtain ⟨hlive', -, -, -⟩ := h.beside hlive hapart
  obtain ⟨hsep, hapartNew, -, -⟩ := h.separate hlive hapart
  have hsize := h.size_lt
  have hlast : 4096 * Vm.trapframe ≤ 2 ^ 38 := by decide
  have hother : ∀ (m : Machine) (i : Fin 512) (word : Word), ∀ page, page ≠ frame →
      (m.store frame i word).mem page = m.mem page :=
    fun m i word page hne => store_of_ne m i word hne
  obtain ⟨hsep₁, hmoves₁, hsame₁⟩ := hsep.touch_frame hapartNew
    (m.store frame a1 (BitVec.ofNat 64 sp)) rfl (hother m a1 (BitVec.ofNat 64 sp))
  have hapart₁ := hmoves₁.keeps_apart hapartNew fun page hpage => hsep.page_lt hpage
  have hheld₁ := held_frame (S := Set.Iio (pages sz))
    fun page hpage => hsame₁ page (Or.inl (Or.inl hpage))
  obtain ⟨m₂, m₃, n, ok, hdealloc, hcopy, hsep₃, hmoves₃, hkeep₃, hframe₃, hok, hfail⟩ :=
    remirror_spec hlive' (fun page hpage => hsame₁ page (Or.inr hpage)) hsep₁ hapart₁
      (hsize.trans hlast)
  have hneed : kernNeed (m.store frame a1 (BitVec.ofNat 64 sp)) kern 0 sz
      = kernNeed m₀ kern 0 sz := by
    rw [← h.kernNeed_eq hlive hapart, kernNeed, kernNeed,
      missing_frame fun page hpage => hsame₁ page (Or.inr hpage)]
  rw [hneed] at hfail
  have hapart₃ := hmoves₃.keeps_apart hapart₁ fun page hpage => hsep₁.page_lt hpage
  have hkeep₃' : ∀ page ∈ held m.mem root (Set.Iio (pages sz)), m₃.mem page = m.mem page := by
    intro page hpage
    rw [hkeep₃ page (by rw [hheld₁]; exact hpage), hsame₁ page (Or.inl hpage)]
  rw [Vm.execCommit, deref_of_eq hlive.trapframe, deref_of_eq hlive.pagetable,
    deref_of_eq hlive.kPagetable]
  simp only [ok_bind, hdealloc, hcopy]
  cases ok with
  | false =>
      right
      obtain ⟨m', hfree, -⟩ := procFreeuserpagetable_spec h.top
        (show sz < 2 ^ 63 by omega) hsep₃.space
        (hapart₃.mono (Set.subset_union_left.trans Set.subset_union_right)) (by
          intro vpn hlo hhi
          rw [entry_frame fun page hpage => hkeep₃' page (Or.inl hpage)]
          exact h.rest vpn hlo hhi)
      refine ⟨⟨m', ?_⟩, hfail⟩
      simp only [if_true, Vm.execBad, hfree, ok_bind]
      rfl
  | true =>
      left
      obtain ⟨hlimit, hmirror, hrest⟩ := hok rfl
      obtain ⟨hsep₄, hmoves₄, hsame₄⟩ := hsep₃.touch_frame hapart₃
        ((m₃.store frame epc (BitVec.ofNat 64 entry)).store frame Vm.sp (BitVec.ofNat 64 sp)) rfl
        fun page hne => (hother _ _ _ page hne).trans (hother _ _ _ page hne)
      have hroot₄ := entry_frame fun page hpage => hsame₄ page (Or.inl (Or.inl hpage))
      have hkern₄ := entry_frame fun page hpage => hsame₄ page (Or.inr hpage)
      have ha1 : m₃.mem frame a1 = BitVec.ofNat 64 sp := by
        rw [hframe₃, store_same, if_pos rfl]
      obtain ⟨m', hfree, hcommit⟩ := h.replace (safestrcpy (baseName path)) sp entry hlive hapart
        hsep₄ ((hmoves₁.trans hmoves₃).trans hmoves₄)
        (by
          intro page hpage
          rw [hsame₄ page, hkeep₃' page hpage]
          refine Or.inl ?_
          rw [held_frame fun page hpage => hkeep₃' page (Or.inl hpage)]
          exact hpage)
        hlimit
        (by
          intro vpn hvpn
          rw [hkern₄, hroot₄]
          exact hmirror vpn hvpn)
        (by
          intro vpn hlo hhi
          rw [hkern₄]
          exact hrest vpn hlo hhi)
        (by rw [store_same, if_neg (by decide), store_same, if_neg (by decide), ha1])
        (by rw [store_same, if_pos rfl])
        (by rw [store_same, if_neg (by decide), store_same, if_pos rfl])
      have hcount : m.free.length = m₃.free.length + kernNeed m₀ kern 0 sz := hfail
      refine ⟨m', ?_, hcommit, hlimit, by omega⟩
      have hprint : vmprint m' 3 root = .ok () := vmprint_ok hcommit.live.space.table.shape
      simp only [Bool.true_eq_false, if_false, hfree, ok_bind, hprint, ite_self]
      rfl

end Commit

end OperateSystem.Vm

import OperateSystem.Vm.Commit
import OperateSystem.Vm.Owners

/-!
# New processes

`allocproc` takes an entry of the table and makes an empty process of it; `userinit`
and `fork` give it user memory and the mirror of that memory.  All pages come from the
free list, so the other processes keep what they own.
-/

namespace OperateSystem.Vm

open OperateSystem.PointerTree

/-- The entry of the table that `allocproc` takes. -/
def unusedEntry (L : Layout) (s : Kernel) : Option ℕ :=
  (List.range L.nproc).find? fun i => (s.proc i).state = .unused

/-- The entries of the table that are not in use hold nothing but their kernel stack. -/
structure Vacancies (L : Layout) (s : Kernel) : Prop where
  free : Apart s.machine ∅
  idle : ∀ j, j < L.nproc → (s.proc j).state = .unused → Idle (s.proc j)
  kstack : ∀ j, j < L.nproc → (s.proc j).state = .unused → (s.proc j).kstack = L.kstack j
  kstackPa : ∀ j, j < L.nproc → (s.proc j).state = .unused → (s.proc j).kstackPa < 2 ^ 52

/-- What `allocproc` makes of an entry of the table. -/
def embryo (p : Proc) (pid frame user kern : ℕ) : Proc :=
  { p with
    pid := pid, trapframe := some frame, kPagetable := some kern, pagetable := some user }

/-- The entry gets new contents, and its process the next pid. -/
def Kernel.enter (s : Kernel) (i : ℕ) (p : Proc) (m : Machine) : Kernel :=
  { s.set i p m with nextpid := s.nextpid + 1 }

section Kernel

variable {L : Layout} {s : Kernel} {i j : ℕ} {p : Proc} {m : Machine}

theorem Kernel.enter_self : (s.enter i p m).proc i = p := Kernel.set_self (m := m)

theorem Kernel.enter_of_ne (h : j ≠ i) : (s.enter i p m).proc j = s.proc j :=
  Kernel.set_of_ne (m := m) h

theorem Kernel.enter_set (p' : Proc) (m' : Machine) :
    (s.enter i p m).set i p' m' = s.enter i p' m' := by
  simp only [Kernel.enter, Kernel.set, Function.update_idem]

theorem Owners.vacancies (h : Owners L s) : Vacancies L s :=
  ⟨h.free, fun _ hj hunused => h.idle hj hunused, fun j hj _ => (h.sound j hj).kstack,
    fun j hj _ => (h.sound j hj).kstackPa⟩

theorem Turn.enter (h : Turn L s (s.set i p m) i) : Turn L s (s.enter i p m) i :=
  { h with }

end Kernel

section Allocproc

variable {L : Layout} {s : Kernel}

/-- `allocproc` fails when all entries are in use.  Else it takes one of them, and the
number of free pages decides. -/
theorem allocproc_spec (h : Vacancies L s) :
    (unusedEntry L s = none ∧ allocproc L s = .ok (none, s)) ∨
    ∃ j, unusedEntry L s = some j ∧ j < L.nproc ∧ Idle (s.proc j) ∧
      (((s.machine.free.length = 0 ∨ (1 + kernelCost L (L.kstack j) ≤ s.machine.free.length ∧
          s.machine.free.length < processCost L (L.kstack j))) ∧
        ∃ p m', allocproc L s = .ok (none, s.enter j p m') ∧
          Idle p ∧ p.kstack = L.kstack j ∧ p.kstackPa = (s.proc j).kstackPa ∧
          Moves ∅ ∅ s.machine m') ∨
      (0 < s.machine.free.length ∧ s.machine.free.length < 1 + kernelCost L (L.kstack j) ∧
        ∃ e, allocproc L s = .error e) ∨
      ∃ m' frame user kern,
        allocproc L s
          = .ok (some j, s.enter j (embryo (s.proc j) s.nextpid frame user kern) m') ∧
        Fresh L s.machine m' (embryo (s.proc j) s.nextpid frame user kern) frame user kern) := by
  cases hfind : unusedEntry L s with
  | none =>
      rw [unusedEntry] at hfind
      exact Or.inl ⟨rfl, by rw [allocproc, hfind]⟩
  | some j =>
      rw [unusedEntry] at hfind
      have hj := List.mem_range.mp (List.mem_of_find?_eq_some hfind)
      have hunused : (s.proc j).state = .unused := by simpa using List.find?_some hfind
      have hidle := h.idle j hj hunused
      have hkstack := h.kstack j hj hunused
      have hlo := L.kstack_ge j hj
      have hhi := L.kstack_lt j hj
      refine Or.inr ⟨j, rfl, hj, hidle, ?_⟩
      rw [← hkstack] at hlo hhi ⊢
      rw [allocproc, hfind]
      rcases allocprocFound_spec h.free hidle hlo hhi (h.kstackPa j hj hunused) s.nextpid with
        ⟨hnone, halloc⟩ | ⟨hpos, hshort, e, halloc⟩ |
        ⟨hge, hshort, m', frame, kern, halloc, hmoves⟩ |
        ⟨m', frame, user, kern, halloc, hfresh⟩
      · refine Or.inl ⟨Or.inl hnone, { s.proc j with pid := s.nextpid }, s.machine, ?_,
          ⟨hidle.state, hidle.trapframe, hidle.pagetable, hidle.kPagetable, hidle.sz⟩, rfl, rfl,
          Moves.refl h.free⟩
        simp only [halloc, ok_bind]
        rfl
      · refine Or.inr (Or.inl ⟨hpos, hshort, e, ?_⟩)
        simp only [halloc, error_bind]
      · refine Or.inl ⟨Or.inr ⟨hge, hshort⟩, _, m', ?_, cleared_idle _, rfl, rfl, hmoves⟩
        simp only [halloc, ok_bind]
        rfl
      · refine Or.inr (Or.inr ⟨m', frame, user, kern, ?_, hfresh⟩)
        simp only [halloc, ok_bind]
        rfl

end Allocproc

section Furnish

variable {L : Layout} {m₀ m₁ m₂ : Machine} {p : Proc} {frame user kern sz : ℕ}

/-- Writing to the trapframe keeps the mirror relation. -/
theorem Live.touch_frame (h : Live L m₁ p frame user kern) (hapart : Apart m₁ (owned m₁ p))
    (hfree : m₂.free = m₁.free) (hother : ∀ page, page ≠ frame → m₂.mem page = m₁.mem page) :
    Live L m₂ p frame user kern ∧ Moves (owned m₁ p) (owned m₂ p) m₁ m₂ ∧
      ∀ vpn, entry m₂.mem user vpn = entry m₁.mem user vpn := by
  rw [h.owned_eq] at hapart
  obtain ⟨-, hmoves, hsame⟩ := h.toSeparate.touch_frame hapart m₂ hfree hother
  have hlive : Live L m₂ p frame user kern := by
    apply h.stable
    rintro page (hpage | hpage)
    · exact hsame page (Or.inl (Or.inl hpage))
    · exact hsame page (Or.inr hpage)
  refine ⟨hlive, ?_, entry_frame fun page hpage => hsame page (Or.inl (Or.inl hpage))⟩
  rw [h.owned_eq, hlive.owned_eq]
  exact hmoves

/-- `kvmcopy` completes a new process that has got its user memory. -/
theorem Fresh.furnish (h : Fresh L m₀ m₁ p frame user kern) (hbase : Apart m₀ ∅)
    (hstack : L.phystop ≤ p.kstack) (hspace : Space m₂.mem user (Set.Iio (pages sz)))
    (hmoves : Moves (held m₁.mem user ∅) (held m₂.mem user (Set.Iio (pages sz))) m₁ m₂)
    (hrest : ∀ vpn, pages sz ≤ vpn → vpn < 2 ^ 26 → entry m₂.mem user vpn = userMap L frame vpn)
    (hsz : sz ≤ 2 ^ 38) :
    ∃ ok m₃, kvmcopy L m₂ user kern 0 sz = .ok (ok, m₃) ∧
      (∀ page ∈ held m₂.mem user (Set.Iio (pages sz)), m₃.mem page = m₂.mem page) ∧
      Separate m₃ frame user kern (Set.Iio (pages sz)) ∧
      Moves ∅ (holding m₃ frame user kern (Set.Iio (pages sz))) m₀ m₃ ∧
      (ok = true → ∀ p' : Proc, p'.state ≠ .unused → p'.sz = sz → p'.kstack = p.kstack →
        p'.kstackPa = p.kstackPa → p'.trapframe = some frame → p'.pagetable = some user →
        p'.kPagetable = some kern → Live L m₃ p' frame user kern) ∧
      (if ok then m₂.free.length = m₃.free.length + kernNeed m₁ kern 0 sz
        else L.plic * 4096 < sz ∨ m₂.free.length < kernNeed m₁ kern 0 sz) := by
  have hlive := h.live hstack (show ProcState.runnable ≠ .unused by decide)
  have hzero : Set.Iio (pages p.sz) = ∅ := by rw [h.empty, Iio_pages_zero]
  have hsep := h.toSeparate
  have howned := h.moves
  rw [h.owned_eq] at howned
  rw [hzero] at hsep howned
  have hapart₁ := howned.keeps_apart hbase (by simp)
  obtain ⟨hsep₂, hmoves₂, hkern₂, -⟩ := hsep.change_user hapart₁ hspace hmoves
  have hapart₂ := hmoves₂.keeps_apart hapart₁ fun page hpage => hsep.page_lt hpage
  obtain ⟨m₂', m₃, n, ok, hdealloc, hcopy, hsep₃, hmoves₃, hkeep, -, hok, hcount⟩ :=
    remirror_spec hlive hkern₂ hsep₂ hapart₂ hsz
  -- There is no old mirror to be unmapped.
  change kvmdealloc m₂ kern p.sz 0 = _ at hdealloc
  rw [h.empty, kvmdealloc, dealloc_of_le false (le_refl 0)] at hdealloc
  cases hdealloc
  have hneed : kernNeed m₂ kern 0 sz = kernNeed m₁ kern 0 sz := by
    rw [kernNeed, kernNeed, missing_frame hkern₂]
  rw [hneed] at hcount
  refine ⟨ok, m₃, hcopy, hkeep, hsep₃, (howned.trans hmoves₂).trans hmoves₃, ?_, hcount⟩
  intro htrue p' hstate hp' hkstack hkstackPa hframe huser hkern
  obtain ⟨hlimit, hmirror, hkernRest⟩ := hok htrue
  rw [← hp'] at hsep₃ hlimit hmirror
  refine ⟨⟨hsep₃, hframe, huser, hkern, ?_⟩, hstate, ?_, hlimit, hmirror, ?_⟩
  · intro vpn hlo hhi
    rw [entry_frame fun page hpage => hkeep page (Or.inl hpage)]
    exact hrest vpn (by rwa [← hp']) hhi
  · rw [hkstack]
    exact hstack
  · intro vpn hlo hhi
    rw [hkstack, hkstackPa]
    exact hkernRest vpn (by rwa [← hp']) hhi

end Furnish

section Fork

variable {L : Layout} {s s' : Kernel} {i j : ℕ}

/-- `uvmcopy` of the memory of a process into a new one. -/
theorem Live.copy_user {np : Proc} {m₁ : Machine} {frame user kern frame' user' kern' : ℕ}
    (hlive : Live L s.machine (s.proc i) frame user kern)
    (hparent : Apart s.machine (owned s.machine (s.proc i)))
    (hfresh : Fresh L s.machine m₁ np frame' user' kern') :
    (∃ m₂ map, uvmcopy m₁ user user' (s.proc i).sz = .ok (true, m₂) ∧
      Change user' ∅ (Set.Iio (pages (s.proc i).sz))
        (missing m₁.mem user' (Finset.range (pages (s.proc i).sz))) map m₁ m₂ ∧
      m₁.free.length = m₂.free.length + userNeed m₁ user' 0 (s.proc i).sz ∧
      (∀ vpn, vpn < 2 ^ 26 → pages (s.proc i).sz ≤ vpn → map vpn = userMap L frame' vpn) ∧
      ∀ vpn, vpn < pages (s.proc i).sz →
        pteFlags (map vpn) = pteFlags (entry s.machine.mem user vpn) ∧
        m₂.mem (pte2pa (map vpn)) = s.machine.mem (pte2pa (entry s.machine.mem user vpn))) ∨
    (∃ m₂ added, uvmcopy m₁ user user' (s.proc i).sz = .ok (false, m₂) ∧
      Change user' ∅ ∅ added (entry m₁.mem user') m₁ m₂ ∧
      m₁.free.length < userNeed m₁ user' 0 (s.proc i).sz) := by
  have hsize := hlive.size_lt
  have hplic := hlive.pages_le
  have hbound := L.plic_lt
  have hnone : pages np.sz = 0 := by rw [hfresh.empty, pages]
  have hsep := hfresh.toSeparate
  have hmoves := hfresh.moves
  rw [hfresh.owned_eq] at hmoves
  rw [show Set.Iio (pages np.sz) = ∅ by rw [hfresh.empty, Iio_pages_zero]] at hsep hmoves
  have hfree := hparent.mono (Set.empty_subset _)
  rw [hlive.owned_eq] at hparent
  have hbeside : Away (holding s.machine frame user kern (Set.Iio (pages (s.proc i).sz))) ∅
      s.machine := fun page hpage =>
    ⟨Set.notMem_empty page, fun hmem => hparent.apart page hmem hpage⟩
  obtain ⟨haway, hsame⟩ := hmoves.away hbeside
  have htables : ∀ page ∈ tables s.machine.mem user, m₁.mem page = s.machine.mem page :=
    fun page hpage => hsame page (Or.inr (Or.inl (Or.inl hpage)))
  have hentry := entry_frame htables
  have hheld := held_frame (S := Set.Iio (pages (s.proc i).sz)) htables
  have hapart := hmoves.keeps_apart hfree (by simp)
  have haway' : Away (held m₁.mem user (Set.Iio (pages (s.proc i).sz)))
      (held m₁.mem user' ∅) m₁ := by
    intro page hpage
    rw [hheld] at hpage
    obtain ⟨hout, hfree⟩ := haway page (Or.inr (Or.inl hpage))
    exact ⟨fun hmem => hout (Or.inr (Or.inl hmem)), hfree⟩
  have hneed : userNeed m₁ user' 0 (s.proc i).sz = pages (s.proc i).sz
      + (missing m₁.mem user' (Finset.range (pages (s.proc i).sz))).card := by
    rw [userNeed, newVpns, show pages 0 = 0 from rfl, Nat.sub_zero, Finset.range_eq_Ico]
  rw [hneed]
  rcases uvmcopy_spec hsep.space (hapart.mono (Set.subset_union_left.trans Set.subset_union_right))
    (hlive.space.table.frame htables) haway' (show (s.proc i).sz ≤ 2 ^ 38 by omega)
    (fun vpn hvpn => by
      rw [hentry]
      exact hlive.space.mapped vpn hvpn)
    (fun vpn hvpn => by
      rw [hfresh.userRest vpn (by omega) (by omega), userMap_low L (by rw [trapframe]; omega)]) with
    ⟨m₂, map, hcopy, hchange, hcount, hout, hin⟩ | ⟨m₂, added, hcopy, hchange, -, hshort⟩
  · refine Or.inl ⟨m₂, map, hcopy, hchange, by omega, ?_, ?_⟩
    · intro vpn hvpn hle
      rw [hout vpn hvpn hle]
      exact hfresh.userRest vpn (by omega) hvpn
    · intro vpn hvpn
      obtain ⟨hflags, hcontent⟩ := hin vpn hvpn
      rw [hentry] at hflags hcontent
      refine ⟨hflags, hcontent.trans (hsame _ ?_)⟩
      exact Or.inr (Or.inl (Or.inr ⟨vpn, hvpn, rfl⟩))
  · exact Or.inr ⟨m₂, added, hcopy, hchange, hshort⟩

/-- With size 0, `proc_freeuserpagetable` panics at a page that is still mapped. -/
theorem procFreeuserpagetable_panic {m : Machine} {frame user vpn : ℕ} (hready : Ready m user)
    (htop : ∀ v, trapframe ≤ v → v < 2 ^ 26 → entry m.mem user v = userMap L frame v)
    (hvpn : vpn < trapframe) (hvalid : Valid (entry m.mem user vpn)) :
    procFreeuserpagetable m user 0 = .error (.panic "freewalk: leaf") := by
  have hlast : trampoline = trapframe + 1 ∧ trapframe + 2 = 2 ^ 26 := by decide
  have hnot : ¬ trampoline = trapframe := by decide
  obtain ⟨m₁, hunmap₁, -, hedit₁⟩ := uvmunmap_keep (n := 1)
    (show trampoline * pgSize = trampoline * 4096 from rfl) hready (by omega) (by
      intro v hlo hhi
      rw [htop v (by omega) (by omega), show v = trampoline by omega, userMap, if_neg hnot,
        if_pos rfl]
      exact valid_entry _ _)
  obtain ⟨m₂, hunmap₂, -, hedit₂⟩ := uvmunmap_keep (n := 1)
    (show trapframe * pgSize = trapframe * 4096 from rfl) (hedit₁.ready hready) (by omega) (by
      intro v hlo hhi
      rw [hedit₁.entry_eq v (by omega), clearMap, if_neg (by omega), htop v (by omega) (by omega),
        userMap, if_pos (by omega)]
      exact valid_entry _ _)
  have hentry : entry m₂.mem user vpn = entry m.mem user vpn := by
    rw [hedit₂.entry_eq vpn (by omega), clearMap, if_neg (by omega),
      hedit₁.entry_eq vpn (by omega), clearMap, if_neg (by omega)]
  rw [procFreeuserpagetable, hunmap₁, ok_bind, hunmap₂, ok_bind, uvmfree, if_neg (lt_irrefl 0),
    ok_bind]
  apply freewalk_panic hedit₂.table (show vpn < 2 ^ 26 by omega)
  rw [hentry]
  exact hvalid

/-- `freeproc` of a new process whose memory is there, but not yet its size. -/
theorem freeproc_panic {m : Machine} {p : Proc} {frame user kern vpn : ℕ} {S : Set ℕ}
    (h : Separate m frame user kern S) (hapart : Apart m (holding m frame user kern S))
    (hframe : p.trapframe = some frame) (huser : p.pagetable = some user) (hsz : p.sz = 0)
    (htop : ∀ v, trapframe ≤ v → v < 2 ^ 26 → entry m.mem user v = userMap L frame v)
    (hvpn : vpn ∈ S) (hlow : vpn < trapframe) :
    freeproc m p = .error (.panic "freewalk: leaf") := by
  have htables : ∀ page ∈ tables m.mem user, (m.kfree frame).mem page = m.mem page := by
    intro page hpage
    apply fill_of_ne
    rintro rfl
    exact h.frame_apart (Or.inl (Or.inl hpage))
  have hentry := entry_frame htables
  have hready : Ready (m.kfree frame) user := by
    refine ⟨?_, h.space.table.frame htables⟩
    rw [tables_frame htables]
    have hmoves := (Moves.kfree (hapart.mono Set.subset_union_left)).extend
      (hapart.away (Set.disjoint_singleton_left.mpr h.frame_apart))
    rw [Set.empty_union] at hmoves
    exact (hmoves.keeps_apart hapart fun page hpage => h.page_lt hpage).mono
      (Set.subset_union_left.trans Set.subset_union_left)
  have hpanic := procFreeuserpagetable_panic (L := L) hready
    (fun v hlo hhi => by rw [hentry]; exact htop v hlo hhi) hlow
    (by rw [hentry]; exact h.space.mapped vpn hvpn)
  rw [freeproc, hframe, huser, hsz]
  simp only [hpanic, error_bind]

/-- The entry of the child when `fork` is done. -/
def child (p np : Proc) (i : ℕ) : Proc :=
  { np with sz := p.sz, parent := some i, name := safestrcpy p.name, state := .runnable }

/-- The child of process `i` in entry `j`: it is live, it has taken its pages from the free
list, and its memory is a copy of that of its parent, with the same flags. -/
structure Forked (L : Layout) (s : Kernel) (i j : ℕ) (m' : Machine) (np : Proc) (user : ℕ) :
    Prop where
  pid : np.pid = s.nextpid
  state : np.state = .runnable
  parent : np.parent = some i
  kstack : np.kstack = L.kstack j
  kstackPa : np.kstackPa = (s.proc j).kstackPa
  size : np.sz = (s.proc i).sz
  live : ∃ frame' user' kern', Live L m' np frame' user' kern' ∧
    ∀ vpn, vpn < pages np.sz →
      pteFlags (entry m'.mem user' vpn) = pteFlags (entry s.machine.mem user vpn) ∧
      m'.mem (pte2pa (entry m'.mem user' vpn))
        = s.machine.mem (pte2pa (entry s.machine.mem user vpn))
  moves : Moves ∅ (owned m' np) s.machine m'

theorem copyTrapframe_free (m : Machine) (frame frame' : ℕ) :
    (copyTrapframe m frame frame').free = m.free := rfl

theorem copyTrapframe_of_ne (m : Machine) (frame : ℕ) {frame' page : ℕ} (hne : page ≠ frame') :
    (copyTrapframe m frame frame').mem page = m.mem page := by
  rw [copyTrapframe, store_of_ne _ _ _ hne, fill_of_ne _ _ hne]

/-- The trapframe comes last; then the child is complete. -/
theorem Vacancies.forked (h : Vacancies L s) (hj : j < L.nproc) (hidle : Idle (s.proc j))
    {m₂ m₃ : Machine} (frame : ℕ) {user frame' user' kern' : ℕ}
    (hlive : Live L m₃ (child (s.proc i) (embryo (s.proc j) s.nextpid frame' user' kern') i)
      frame' user' kern')
    (hmoves : Moves ∅ (holding m₃ frame' user' kern' (Set.Iio (pages (s.proc i).sz)))
      s.machine m₃)
    (hkeep : ∀ page ∈ held m₂.mem user' (Set.Iio (pages (s.proc i).sz)),
      m₃.mem page = m₂.mem page)
    (hpages : ∀ vpn, vpn < pages (s.proc i).sz →
      pteFlags (entry m₂.mem user' vpn) = pteFlags (entry s.machine.mem user vpn) ∧
      m₂.mem (pte2pa (entry m₂.mem user' vpn))
        = s.machine.mem (pte2pa (entry s.machine.mem user vpn))) :
    Forked L s i j (copyTrapframe m₃ frame frame')
      (child (s.proc i) (embryo (s.proc j) s.nextpid frame' user' kern') i) user := by
  have howned := hlive.owned_eq
  change _ = holding m₃ frame' user' kern' (Set.Iio (pages (s.proc i).sz)) at howned
  rw [← howned] at hmoves
  obtain ⟨hlive', hmoves', hentry'⟩ := hlive.touch_frame
    (hmoves.keeps_apart h.free (by simp)) (copyTrapframe_free m₃ frame frame')
    fun page hne => copyTrapframe_of_ne m₃ frame hne
  refine ⟨rfl, rfl, rfl, h.kstack j hj hidle.state, rfl, rfl,
    ⟨frame', user', kern', hlive', ?_⟩, hmoves.trans hmoves'⟩
  intro vpn hvpn
  change vpn < pages (s.proc i).sz at hvpn
  have hentry : entry m₃.mem user' vpn = entry m₂.mem user' vpn :=
    entry_frame (fun page hpage => hkeep page (Or.inl hpage)) vpn
  have hne : pte2pa (entry m₂.mem user' vpn) ≠ frame' := by
    intro heq
    apply hlive.frame_apart
    refine Or.inl (Or.inr ⟨vpn, hvpn, ?_⟩)
    rw [hentry, heq]
  rw [hentry', hentry, copyTrapframe_of_ne m₃ frame hne, hkeep _ (Or.inr ⟨vpn, hvpn, rfl⟩)]
  exact hpages vpn hvpn

/-- A new process whose user memory could not be copied is freed without a trace. -/
theorem Fresh.freeproc_uncopied {p : Proc} {m₀ m₁ m₂ : Machine}
    {frame user kern : ℕ} {added : Finset (List (Fin 512))}
    (h : Fresh L m₀ m₁ p frame user kern) (hbase : Apart m₀ ∅)
    (hchange : Change user ∅ ∅ added (entry m₁.mem user) m₁ m₂) :
    ∃ m', freeproc m₂ p = .ok (cleared p, m') ∧ Moves ∅ ∅ m₀ m' := by
  have hzero : Set.Iio (pages p.sz) = ∅ := by rw [h.empty, Iio_pages_zero]
  have hsep := h.toSeparate
  have hmoves₁ := h.moves
  rw [h.owned_eq] at hmoves₁
  rw [hzero] at hsep hmoves₁
  have hapart₁ := hmoves₁.keeps_apart hbase (by simp)
  obtain ⟨hsep₂, hmoves₂, -, -⟩ := hsep.change_user hapart₁ hchange.space hchange.moves
  have hparts : Parts L m₂ p frame user kern := by
    rw [← hzero] at hsep₂
    refine ⟨hsep₂, h.trapframe, h.pagetable, h.kPagetable, ?_⟩
    intro vpn hlo hhi
    rw [hchange.entry_eq vpn hhi]
    exact h.userRest vpn hlo hhi
  have howned := hparts.owned_eq
  rw [hzero] at howned
  obtain ⟨m', hfree, hmoves'⟩ := freeproc_spec hparts
    (by rw [h.empty]; exact Nat.zero_le _)
    (by
      rw [howned]
      exact hmoves₂.keeps_apart hapart₁ fun page hpage => hsep.page_lt hpage)
  rw [howned] at hmoves'
  exact ⟨m', hfree, (hmoves₁.trans hmoves₂).trans hmoves'⟩

/-- `fork` from `uvmcopy` on: the child is complete; or there are no pages for its user
memory, and it is freed; or there are none for the mirror. -/
theorem Vacancies.fork_fresh (h : Vacancies L s) (hj : j < L.nproc) (hidle : Idle (s.proc j))
    {m₁ : Machine} {frame user kern frame' user' kern' : ℕ}
    (hlive : Live L s.machine (s.proc i) frame user kern)
    (hparent : Apart s.machine (owned s.machine (s.proc i)))
    (hfresh : Fresh L s.machine m₁ (embryo (s.proc j) s.nextpid frame' user' kern') frame' user'
      kern') :
    (∃ m₂ m₃ m', uvmcopy m₁ user user' (s.proc i).sz = .ok (true, m₂) ∧
      kvmcopy L m₂ user' kern' 0 (s.proc i).sz = .ok (true, m₃) ∧
      m' = copyTrapframe m₃ frame frame' ∧
      userNeed m₁ user' 0 (s.proc i).sz + kernNeed m₁ kern' 0 (s.proc i).sz ≤ m₁.free.length ∧
      Forked L s i j m' (child (s.proc i) (embryo (s.proc j) s.nextpid frame' user' kern') i)
        user) ∨
    (∃ m₂ m', uvmcopy m₁ user user' (s.proc i).sz = .ok (false, m₂) ∧
      freeproc m₂ (embryo (s.proc j) s.nextpid frame' user' kern')
        = .ok (cleared (embryo (s.proc j) s.nextpid frame' user' kern'), m') ∧
      m₁.free.length < userNeed m₁ user' 0 (s.proc i).sz ∧ Moves ∅ ∅ s.machine m') ∨
    (∃ m₂ m₃ e, uvmcopy m₁ user user' (s.proc i).sz = .ok (true, m₂) ∧
      kvmcopy L m₂ user' kern' 0 (s.proc i).sz = .ok (false, m₃) ∧
      freeproc m₃ (embryo (s.proc j) s.nextpid frame' user' kern') = .error e ∧
      userNeed m₁ user' 0 (s.proc i).sz ≤ m₁.free.length ∧
      m₁.free.length
        < userNeed m₁ user' 0 (s.proc i).sz + kernNeed m₁ kern' 0 (s.proc i).sz) := by
  have hsize := hlive.size_lt
  have hlimit := hlive.size
  have hplic := hlive.pages_le
  have hbound := L.plic_lt
  have hstack : L.phystop ≤ (embryo (s.proc j) s.nextpid frame' user' kern').kstack := by
    change L.phystop ≤ (s.proc j).kstack
    rw [h.kstack j hj hidle.state]
    exact L.kstack_ge j hj
  rcases hlive.copy_user hparent hfresh with
    ⟨m₂, map, hcopy, hchange, hcount, hrest, hpages⟩ | ⟨m₂, added, hcopy, hchange, hshort⟩
  · have hmoves := hchange.moves
    obtain ⟨ok, m₃, hmirror, hkeep, hsep₃, hmoves₃, hdone, hcount₃⟩ := hfresh.furnish h.free hstack
      hchange.space hmoves (fun vpn hlo hhi => by
        rw [hchange.entry_eq vpn hhi]
        exact hrest vpn hhi hlo) (show (s.proc i).sz ≤ 2 ^ 38 by omega)
    cases ok with
    | true =>
        rw [if_pos rfl] at hcount₃
        have hlive₃ := hdone rfl
          (child (s.proc i) (embryo (s.proc j) s.nextpid frame' user' kern') i)
          (show ProcState.runnable ≠ .unused by decide) rfl rfl rfl rfl rfl rfl
        have hforked := h.forked hj hidle frame hlive₃ hmoves₃ hkeep fun vpn hvpn => by
          rw [hchange.entry_eq vpn (by omega)]
          exact hpages vpn hvpn
        exact Or.inl ⟨m₂, m₃, _, hcopy, hmirror, rfl, by omega, hforked⟩
    | false =>
        -- The size of the child is not set yet, so `freeproc` finds its pages mapped.
        have hshort : m₂.free.length < kernNeed m₁ kern' 0 (s.proc i).sz :=
          hcount₃.resolve_left (by omega)
        have hpos : 0 < pages (s.proc i).sz := by
          have hneed := kernNeed_le m₁ kern' (s.proc i).sz
          omega
        have hentry₃ : ∀ vpn, vpn < 2 ^ 26 → entry m₃.mem user' vpn = map vpn := by
          intro vpn hvpn
          rw [entry_frame fun page hpage => hkeep page (Or.inl hpage), hchange.entry_eq vpn hvpn]
        have hpanic := freeproc_panic (L := L)
          (p := embryo (s.proc j) s.nextpid frame' user' kern') hsep₃
          (hmoves₃.keeps_apart h.free (by simp)) rfl rfl hfresh.empty
          (fun v hlo hhi => by
            rw [trapframe] at hlo
            rw [hentry₃ v hhi]
            exact hrest v hhi (by omega))
          (show 0 ∈ Set.Iio (pages (s.proc i).sz) from hpos) (by decide)
        exact Or.inr (Or.inr ⟨m₂, m₃, _, hcopy, hmirror, hpanic, by omega, by omega⟩)
  · obtain ⟨m', hfree, hmoves⟩ := hfresh.freeproc_uncopied h.free hchange
    exact Or.inr (Or.inl ⟨m₂, m', hcopy, hfree, hshort, hmoves⟩)

/-- The pages that the user memory of a child takes, tables included. -/
def childUser (sz : ℕ) : ℕ := pages sz + (tablesFor (newVpns 0 sz) \ tablesFor topVpns).card

/-- The tables that the mirror of the memory of a child takes. -/
def childKern (L : Layout) (kstack sz : ℕ) : ℕ :=
  (tablesFor (newVpns 0 sz) \ tablesFor (kernelVpns L kstack)).card

/-- `fork` fails when all entries of the table are in use.  Else the number of free pages
decides: there is a child, or the pages it has taken are free again, or the kernel comes
to an end. -/
theorem fork_spec (h : Vacancies L s) {frame user kern : ℕ}
    (hlive : Live L s.machine (s.proc i) frame user kern)
    (hparent : Apart s.machine (owned s.machine (s.proc i))) :
    (unusedEntry L s = none ∧ fork L s i = .ok (none, s)) ∨
    ∃ j, unusedEntry L s = some j ∧ j < L.nproc ∧ Idle (s.proc j) ∧
      (((s.machine.free.length = 0 ∨ (1 + kernelCost L (L.kstack j) ≤ s.machine.free.length ∧
          s.machine.free.length < processCost L (L.kstack j) + childUser (s.proc i).sz)) ∧
        ∃ p m', fork L s i = .ok (none, s.enter j p m') ∧
          Idle p ∧ p.kstack = L.kstack j ∧ p.kstackPa = (s.proc j).kstackPa ∧
          Moves ∅ ∅ s.machine m') ∨
      (((0 < s.machine.free.length ∧ s.machine.free.length < 1 + kernelCost L (L.kstack j)) ∨
          (processCost L (L.kstack j) + childUser (s.proc i).sz ≤ s.machine.free.length ∧
            s.machine.free.length < processCost L (L.kstack j) + childUser (s.proc i).sz
              + childKern L (L.kstack j) (s.proc i).sz)) ∧
        ∃ e, fork L s i = .error e) ∨
      (processCost L (L.kstack j) + childUser (s.proc i).sz
          + childKern L (L.kstack j) (s.proc i).sz ≤ s.machine.free.length ∧
        ∃ np m', fork L s i = .ok (some s.nextpid, s.enter j np m') ∧
          Forked L s i j m' np user)) := by
  rcases allocproc_spec h with ⟨hnone, halloc⟩ | ⟨j, hfind, hj, hidle, hcases⟩
  · refine Or.inl ⟨hnone, ?_⟩
    rw [fork, halloc]
    rfl
  · refine Or.inr ⟨j, hfind, hj, hidle, ?_⟩
    rcases hcases with ⟨hwhy, p, m', halloc, hdone⟩ | ⟨hpos, hshort, e, halloc⟩ |
      ⟨m₁, frame', user', kern', halloc, hfresh⟩
    · refine Or.inl ⟨by omega, p, m', ?_, hdone⟩
      rw [fork, halloc]
      rfl
    · refine Or.inr (Or.inl ⟨Or.inl ⟨hpos, hshort⟩, e, ?_⟩)
      rw [fork, halloc]
      rfl
    · have hne : i ≠ j := by
        rintro rfl
        exact hlive.state hidle.state
      have hkstack := h.kstack j hj hidle.state
      have hcount : s.machine.free.length = m₁.free.length + processCost L (L.kstack j) := by
        have hcount := hfresh.count
        rw [← hkstack]
        exact hcount
      have huser : userNeed m₁ user' 0 (s.proc i).sz = childUser (s.proc i).sz := by
        rw [userNeed, hfresh.userMissing, show pages 0 = 0 from rfl, Nat.sub_zero, childUser]
      have hkern : kernNeed m₁ kern' 0 (s.proc i).sz
          = childKern L (L.kstack j) (s.proc i).sz := by
        rw [kernNeed, hfresh.kernMissing, ← hkstack, childKern]
        rfl
      have hcost : 1 + kernelCost L (L.kstack j) ≤ processCost L (L.kstack j) := by
        rw [processCost]
        omega
      have hpagetable := deref_of_eq hlive.pagetable
      have hframe := deref_of_eq hlive.trapframe
      rw [fork, halloc]
      simp only [ok_bind, Kernel.enter_self, Kernel.enter_of_ne hne, Kernel.enter_set, hpagetable,
        hframe]
      rcases h.fork_fresh hj hidle hlive hparent hfresh with
        ⟨m₂, m₃, m', hcopy, hmirror, rfl, hneed, hforked⟩ |
        ⟨m₂, m', hcopy, hfree, hneed, hmoves⟩ | ⟨m₂, m₃, e, hcopy, hmirror, hpanic, hneed, hshort⟩
      · refine Or.inr (Or.inr ⟨by omega, _, _, ?_, hforked⟩)
        change (Vm.uvmcopy m₁ user user' (s.proc i).sz >>= _) = _
        simp only [hcopy, ok_bind, Bool.true_eq_false, if_false]
        change (kvmcopy L m₂ user' kern' 0 (s.proc i).sz >>= _) = _
        simp only [hmirror, ok_bind, Bool.true_eq_false, if_false]
        rfl
      · refine Or.inl ⟨by omega, _, m', ?_, cleared_idle _, hkstack, rfl, hmoves⟩
        change (Vm.uvmcopy m₁ user user' (s.proc i).sz >>= _) = _
        simp only [hcopy, ok_bind, if_true, hfree]
        rfl
      · refine Or.inr (Or.inl ⟨Or.inr ⟨by omega, by omega⟩, e, ?_⟩)
        change (Vm.uvmcopy m₁ user user' (s.proc i).sz >>= _) = _
        simp only [hcopy, ok_bind, Bool.true_eq_false, if_false]
        change (kvmcopy L m₂ user' kern' 0 (s.proc i).sz >>= _) = _
        simp only [hmirror, ok_bind, if_true, hpanic, error_bind]

/-- When `fork` returns, an entry of the table has had its turn, or nothing has happened. -/
theorem Owners.fork (h : Owners L s) (hi : i < L.nproc) (huse : (s.proc i).state ≠ .unused)
    {result : Option ℕ} (hfork : fork L s i = .ok (result, s')) :
    s' = s ∨ ∃ j, Turn L s s' j := by
  obtain ⟨frame, user, kern, hlive, hflags⟩ := h.live hi huse
  rcases fork_spec h.vacancies hlive (h.apart_owned hi) with ⟨-, hnone⟩ | ⟨j, -, hj, hidle,
    ⟨-, p, m', hnone, hp, hkstack, hkstackPa, hmoves⟩ | ⟨-, e, herror⟩ |
    ⟨-, np, m', hsome, hforked⟩⟩
  · rw [hnone] at hfork
    cases hfork
    exact Or.inl rfl
  · rw [hnone] at hfork
    cases hfork
    refine Or.inr ⟨j, Turn.enter (Turn.set hj ?_ ⟨hkstack, ?_, Or.inl hp⟩ hkstackPa)⟩
    · rw [hidle.owned_eq, hp.owned_eq]
      exact hmoves
    · rw [hkstackPa]
      exact (h.sound j hj).kstackPa
  · rw [herror] at hfork
    cases hfork
  · rw [hsome] at hfork
    cases hfork
    obtain ⟨frame', user', kern', hlive', hcopy⟩ := hforked.live
    refine Or.inr ⟨j, Turn.enter (Turn.set hj ?_ ⟨hforked.kstack, ?_,
      Or.inr ⟨frame', user', kern', hlive', ?_⟩⟩ hforked.kstackPa)⟩
    · rw [hidle.owned_eq]
      exact hforked.moves
    · rw [hforked.kstackPa]
      exact (h.sound j hj).kstackPa
    · rw [← hforked.size] at hflags
      exact hflags.of_flags_eq fun vpn hvpn => (hcopy vpn hvpn).1

end Fork

end OperateSystem.Vm

import OperateSystem.Vm.Boot
import OperateSystem.Vm.Image

/-!
# Processes that end

`exit` only marks a process and those that have to do with it; its pages stay with it until
`wait` of its parent finds it and `freeproc` gives them back.
-/

namespace OperateSystem.Vm

open OperateSystem.PointerTree

/-- The entry keeps its pages, and stays in use or not in use. -/
structure Keeps (p p' : Proc) : Prop where
  unused : p'.state = .unused ↔ p.state = .unused
  trapframe : p'.trapframe = p.trapframe
  pagetable : p'.pagetable = p.pagetable
  kPagetable : p'.kPagetable = p.kPagetable
  sz : p'.sz = p.sz
  kstack : p'.kstack = p.kstack
  kstackPa : p'.kstackPa = p.kstackPa

/-- All entries keep their pages, and memory stays as it is. -/
structure AllKeep (s s' : Kernel) : Prop where
  machine : s'.machine = s.machine
  kernelPagetable : s'.kernelPagetable = s.kernelPagetable
  proc : ∀ i, Keeps (s.proc i) (s'.proc i)

section Keeps

variable {L : Layout} {m : Machine} {p p' p'' : Proc} {s s' s'' : Kernel} {i frame user kern : ℕ}

theorem Keeps.refl (p : Proc) : Keeps p p := ⟨Iff.rfl, rfl, rfl, rfl, rfl, rfl, rfl⟩

theorem Keeps.trans (h : Keeps p p') (h' : Keeps p' p'') : Keeps p p'' :=
  ⟨h'.unused.trans h.unused, h'.trapframe.trans h.trapframe, h'.pagetable.trans h.pagetable,
    h'.kPagetable.trans h.kPagetable, h'.sz.trans h.sz, h'.kstack.trans h.kstack,
    h'.kstackPa.trans h.kstackPa⟩

theorem Keeps.owned_eq (h : Keeps p p') : owned m p' = owned m p := by
  rw [owned, owned, h.trapframe, h.pagetable, h.kPagetable, h.sz]

theorem Keeps.live (h : Keeps p p') (hlive : Live L m p frame user kern) :
    Live L m p' frame user kern := by
  refine ⟨⟨?_, h.trapframe.trans hlive.trapframe, h.pagetable.trans hlive.pagetable,
    h.kPagetable.trans hlive.kPagetable, ?_⟩, fun hunused => hlive.state (h.unused.mp hunused),
    ?_, ?_, ?_, ?_⟩
  · rw [h.sz]
    exact hlive.toSeparate
  · rw [h.sz]
    exact hlive.userRest
  · rw [h.kstack]
    exact hlive.stack
  · rw [h.sz]
    exact hlive.size
  · rw [h.sz]
    exact hlive.mirror
  · rw [h.sz, h.kstack, h.kstackPa]
    exact hlive.kernRest

theorem Keeps.sound (h : Keeps p p') (hsound : Sound L m i p) : Sound L m i p' := by
  refine ⟨h.kstack.trans hsound.kstack, ?_, ?_⟩
  · rw [h.kstackPa]
    exact hsound.kstackPa
  · rcases hsound.kind with hidle | ⟨frame, user, kern, hlive, hflags⟩
    · exact Or.inl ⟨h.unused.mpr hidle.state, h.trapframe.trans hidle.trapframe,
        h.pagetable.trans hidle.pagetable, h.kPagetable.trans hidle.kPagetable, h.sz.trans hidle.sz⟩
    · refine Or.inr ⟨frame, user, kern, h.live hlive, ?_⟩
      rw [h.sz]
      exact hflags

theorem AllKeep.refl (s : Kernel) : AllKeep s s := ⟨rfl, rfl, fun i => Keeps.refl (s.proc i)⟩

theorem AllKeep.trans (h : AllKeep s s') (h' : AllKeep s' s'') : AllKeep s s'' :=
  ⟨h'.machine.trans h.machine, h'.kernelPagetable.trans h.kernelPagetable,
    fun i => (h.proc i).trans (h'.proc i)⟩

theorem AllKeep.set (h : Keeps (s.proc i) p) : AllKeep s (s.set i p s.machine) := by
  refine ⟨rfl, rfl, fun j => ?_⟩
  by_cases hj : j = i
  · subst hj
    rw [Kernel.set_self]
    exact h
  · rw [Kernel.set_of_ne hj]
    exact Keeps.refl (s.proc j)

theorem Owners.keep (h : Owners L s) (hs : AllKeep s s') : Owners L s' := by
  have howned : ∀ i, owned s'.machine (s'.proc i) = owned s.machine (s.proc i) := by
    intro i
    rw [hs.machine]
    exact (hs.proc i).owned_eq
  refine ⟨?_, ?_, ?_, ?_, ?_, ?_⟩
  · rw [hs.machine]
    exact h.free
  · rw [hs.machine]
    exact h.nonnull
  · intro i hi
    rw [hs.machine]
    exact (hs.proc i).sound (h.sound i hi)
  · intro i hi
    rw [howned, hs.machine]
    exact h.apart i hi
  · intro i hi
    rw [howned]
    exact h.ownsNonnull i hi
  · intro i j hi hj hne
    rw [howned, howned]
    exact h.disjoint i j hi hj hne

end Keeps

section Exit

variable {L : Layout} {s s' : Kernel} {i : ℕ}

theorem reparent_keeps (s : Kernel) (i : ℕ) : AllKeep s (reparent s i) := by
  refine ⟨rfl, rfl, fun j => ?_⟩
  rw [reparent]
  dsimp only
  split
  · exact ⟨Iff.rfl, rfl, rfl, rfl, rfl, rfl, rfl⟩
  · exact Keeps.refl (s.proc j)

theorem wakeup1_keeps (s : Kernel) (i : ℕ) : AllKeep s (wakeup1 s i) := by
  rw [wakeup1]
  split
  · rename_i hasleep
    refine AllKeep.set ⟨?_, rfl, rfl, rfl, rfl, rfl, rfl⟩
    rw [hasleep.2]
    exact iff_of_false nofun nofun
  · exact AllKeep.refl s

/-- A process that exits keeps its pages. -/
theorem exit_keeps {status : BitVec 32} (huse : (s.proc i).state ≠ .unused)
    (h : exit s i status = .ok s') : AllKeep s s' := by
  rw [exit] at h
  split at h
  · cases h
  · obtain ⟨initproc, -, h⟩ := bind_eq_ok h
    obtain ⟨parent, -, h⟩ := bind_eq_ok h
    cases h
    have hbefore := ((wakeup1_keeps s initproc).trans
      (reparent_keeps (wakeup1 s initproc) i)).trans (wakeup1_keeps _ parent)
    refine hbefore.trans (AllKeep.set ⟨?_, rfl, rfl, rfl, rfl, rfl, rfl⟩)
    rw [(hbefore.proc i).unused]
    exact iff_of_false nofun huse

end Exit

section Wait

variable {L : Layout} {s s' : Kernel} {i addr : ℕ}

/-- `copyout` to a live process writes to pages of its user memory only. -/
theorem Live.copyout {m : Machine} {p : Proc} {frame user kern : ℕ}
    (h : Live L m p frame user kern) (dstva : ℕ) (src : List (BitVec 8)) :
    ∃ ok m', Vm.copyout m user dstva src = .ok (ok, m') ∧ m'.free = m.free ∧
      ∀ page, page ∉ targets m.mem user (Set.Iio (pages p.sz)) → m'.mem page = m.mem page := by
  obtain ⟨ok, m', hloop, hfree, hsame, -⟩ :=
    h.space.copyoutLoop h.frame_lt h.userRest dstva (le_refl src.length)
  exact ⟨ok, m', hloop, hfree, hsame⟩

/-- Writing to its pages is a turn of a process. -/
theorem Owners.touch (h : Owners L s) (hi : i < L.nproc) {frame user kern : ℕ} {m' : Machine}
    (hlive : Live L s.machine (s.proc i) frame user kern)
    (hflags : Flagged s.machine user (s.proc i).sz) (hfree : m'.free = s.machine.free)
    (hsame : ∀ page, page ∉ targets s.machine.mem user (Set.Iio (pages (s.proc i).sz)) →
      m'.mem page = s.machine.mem page) : Turn L s { s with machine := m' } i := by
  have hsound := h.sound i hi
  have htables : ∀ page ∈ tables s.machine.mem user ∪ tables s.machine.mem kern,
      m'.mem page = s.machine.mem page := by
    rintro page (hpage | hpage)
    · apply hsame
      rintro ⟨vpn, hvpn, rfl⟩
      exact hlive.space.apart vpn hvpn hpage
    · apply hsame
      intro htarget
      exact Set.disjoint_left.mp hlive.disjoint (Or.inr htarget) hpage
  refine ⟨hi, fun _ _ => rfl, ?_, ⟨hsound.kstack, hsound.kstackPa,
    Or.inr ⟨frame, user, kern, hlive.stable htables, ?_⟩⟩, rfl, rfl⟩
  · change Moves _ (owned m' (s.proc i)) _ m'
    rw [hlive.owned_frame htables]
    apply Moves.touch (h.apart_owned hi) hfree
    intro page hpage
    apply hsame
    intro htarget
    apply hpage
    rw [hlive.owned_eq]
    exact Or.inr (Or.inl (Or.inr htarget))
  · exact hflags.frame fun page hpage => htables page (Or.inl hpage)

/-- `freeproc` of a process in use is a turn of that process. -/
theorem Owners.freeproc (h : Owners L s) (hi : i < L.nproc) (huse : (s.proc i).state ≠ .unused) :
    ∃ m', freeproc s.machine (s.proc i) = .ok (cleared (s.proc i), m') ∧
      Moves (owned s.machine (s.proc i)) ∅ s.machine m' ∧
      Turn L s (s.set i (cleared (s.proc i)) m') i := by
  obtain ⟨frame, user, kern, hlive, -⟩ := h.live hi huse
  have hsound := h.sound i hi
  have hplic := hlive.pages_le
  have hbound := L.plic_lt
  obtain ⟨m', hfree, hmoves⟩ := freeproc_spec hlive.toParts (by rw [trapframe]; omega)
    (h.apart_owned hi)
  refine ⟨m', hfree, hmoves, Turn.set hi ?_ ⟨hsound.kstack, hsound.kstackPa,
    Or.inl (cleared_idle _)⟩ rfl⟩
  rw [(cleared_idle (s.proc i)).owned_eq]
  exact hmoves

/-- What a round of `wait` comes to: a process has its status stored in its memory, and the
process that has ended gives its pages back; or pages stay where they are. -/
theorem Owners.wait (h : Owners L s) (hi : i < L.nproc) (huse : (s.proc i).state ≠ .unused)
    {result : Waited} (hwait : wait L s i addr = .ok (result, s')) :
    AllKeep s s' ∨ Turn L s s' i ∨ ∃ s₁ j, (s₁ = s ∨ Turn L s s₁ i) ∧ Turn L s₁ s' j := by
  obtain ⟨frame, user, kern, hlive, hflags⟩ := h.live hi huse
  rw [Vm.wait] at hwait
  split at hwait
  · rename_i j hfind
    have hj := List.mem_range.mp (List.mem_of_find?_eq_some hfind)
    have hzombie : (s.proc j).parent = some i ∧ (s.proc j).state = .zombie := by
      simpa using List.find?_some hfind
    obtain ⟨⟨ok, m₁⟩, hcopy, hwait⟩ := bind_eq_ok hwait
    -- The status is stored, if the caller wants it.
    have hfirst : ({ s with machine := m₁ } : Kernel) = s ∨
        Turn L s { s with machine := m₁ } i := by
      split at hcopy
      · rw [hlive.pagetable] at hcopy
        obtain ⟨ok', m', hloop, hfree, hsame⟩ := hlive.copyout addr (intBytes (s.proc j).xstate)
        have heq : (Except.ok (ok', m') : Except Fault (Bool × Machine)) = .ok (ok, m₁) :=
          hloop.symm.trans hcopy
        cases heq
        exact Or.inr (h.touch hi hlive hflags hfree hsame)
      · cases hcopy
        exact Or.inl rfl
    have howners : Owners L { s with machine := m₁ } := by
      rcases hfirst with heq | ht
      · rw [heq]
        exact h
      · exact h.turn ht
    dsimp only at hwait
    split at hwait
    · cases hwait
      rcases hfirst with heq | ht
      · rw [heq]
        exact Or.inl (AllKeep.refl s)
      · exact Or.inr (Or.inl ht)
    · obtain ⟨m', hfree, -, hlast⟩ := howners.freeproc hj
        (show (s.proc j).state ≠ .unused by rw [hzombie.2]; decide)
      rw [show Vm.freeproc m₁ (s.proc j) = .ok (cleared (s.proc j), m') from hfree,
        ok_bind] at hwait
      cases hwait
      exact Or.inr (Or.inr ⟨_, j, hfirst, hlast⟩)
  · split at hwait
    · cases hwait
      exact Or.inl (AllKeep.refl s)
    · cases hwait
      refine Or.inl (AllKeep.set ⟨?_, rfl, rfl, rfl, rfl, rfl, rfl⟩)
      exact iff_of_false (by simp) huse

end Wait

section Freeproc

variable {L : Layout} {m m' : Machine}

theorem kfree_pushes (m : Machine) (page : ℕ) : m.free <:+ (m.kfree page).free :=
  List.suffix_cons page m.free

theorem uvmunmapLoop_pushes {root va npages : ℕ} {doFree : Bool}
    (h : uvmunmapLoop root doFree npages va m = .ok m') : m.free <:+ m'.free := by
  induction npages generalizing va m with
  | zero =>
      cases h
      exact List.suffix_refl _
  | succ npages ih =>
      rw [uvmunmapLoop] at h
      obtain ⟨slot, -, h⟩ := bind_eq_ok h
      cases slot with
      | none => cases h
      | some slot =>
          obtain ⟨table, j⟩ := slot
          dsimp only at h
          split at h
          · cases h
          · split at h
            · cases h
            · have hrest := ih h
              cases doFree with
              | true => exact (kfree_pushes m _).trans hrest
              | false => exact hrest

theorem uvmunmap_pushes {root va npages : ℕ} {doFree : Bool}
    (h : uvmunmap m root va npages doFree = .ok m') : m.free <:+ m'.free := by
  rw [uvmunmap] at h
  split at h
  · cases h
  · exact uvmunmapLoop_pushes h

/-- The walk over a tree puts pages on the free list and takes none. -/
theorem releaseWalk_pushes {leafPanics : Bool} {fuel root : ℕ}
    (h : releaseWalk leafPanics fuel root m = .ok m') : m.free <:+ m'.free := by
  induction fuel generalizing root m m' with
  | zero => cases h
  | succ fuel ih =>
      have hword : ∀ m m' i, releaseWord leafPanics fuel root m i = .ok m' →
          m.free <:+ m'.free := by
        intro m m' i hword
        rw [releaseWord] at hword
        split at hword
        · obtain ⟨m₁, hwalk, hword⟩ := bind_eq_ok hword
          cases hword
          exact show m.free <:+ m₁.free from ih hwalk
        · split at hword
          · cases hword
          · cases hword
            exact List.suffix_refl _
      have hloop : ∀ (is : List (Fin 512)) (m m' : Machine),
          List.foldlM (releaseWord leafPanics fuel root) m is = .ok m' → m.free <:+ m'.free := by
        intro is
        induction is with
        | nil =>
            intro m m' hloop
            cases hloop
            exact List.suffix_refl _
        | cons i is ihis =>
            intro m m' hloop
            rw [List.foldlM_cons] at hloop
            obtain ⟨m₁, hfirst, hloop⟩ := bind_eq_ok hloop
            exact (hword m m₁ i hfirst).trans (ihis m₁ m' hloop)
      rw [releaseWalk_succ] at h
      cases hfold : List.foldlM (releaseWord leafPanics fuel root) m (List.finRange 512) with
      | error e =>
          rw [hfold] at h
          cases h
      | ok m₁ =>
          rw [hfold] at h
          cases h
          exact (hloop _ m m₁ hfold).trans (kfree_pushes m₁ root)

theorem uvmfree_pushes {root sz : ℕ} (h : uvmfree m root sz = .ok m') : m.free <:+ m'.free := by
  rw [uvmfree] at h
  obtain ⟨m₁, hunmap, hwalk⟩ := bind_eq_ok h
  have hfirst : m.free <:+ m₁.free := by
    split at hunmap
    · exact uvmunmap_pushes hunmap
    · cases hunmap
      exact List.suffix_refl _
  exact hfirst.trans (releaseWalk_pushes hwalk)

theorem procFreeuserpagetable_pushes {root sz : ℕ}
    (h : procFreeuserpagetable m root sz = .ok m') : m.free <:+ m'.free := by
  obtain ⟨m₁, htramp, h⟩ := bind_eq_ok h
  obtain ⟨m₂, hframe, h⟩ := bind_eq_ok h
  exact ((uvmunmap_pushes htramp).trans (uvmunmap_pushes hframe)).trans (uvmfree_pushes h)

theorem freeproc_eq (m : Machine) (p : Proc) : freeproc m p =
    ((match p.pagetable with
      | some pagetable => procFreeuserpagetable
          (match p.trapframe with
            | some frame => m.kfree frame
            | none => m) pagetable p.sz
      | none => .ok (match p.trapframe with
          | some frame => m.kfree frame
          | none => m)) >>= fun m =>
      (match p.kPagetable with
        | some kPagetable => procFreekernelpagetable m kPagetable
        | none => .ok m) >>= fun m => .ok (cleared p, m)) := by
  rw [freeproc]
  cases p.pagetable <;> cases p.kPagetable <;> rfl

/-- `freeproc` puts pages on the free list and takes none. -/
theorem freeproc_pushes {p p' : Proc} (h : freeproc m p = .ok (p', m')) : m.free <:+ m'.free := by
  rw [freeproc_eq] at h
  obtain ⟨m₂, huser, h⟩ := bind_eq_ok h
  obtain ⟨m₃, hkern, h⟩ := bind_eq_ok h
  cases h
  have hframe : m.free <:+ (match p.trapframe with
      | some frame => m.kfree frame
      | none => m).free := by
    cases p.trapframe with
    | none => exact List.suffix_refl _
    | some frame => exact kfree_pushes m frame
  have hmid : m.free <:+ m₂.free := by
    cases hp : p.pagetable with
    | none =>
        rw [hp] at huser
        cases huser
        exact hframe
    | some user =>
        rw [hp] at huser
        exact hframe.trans (procFreeuserpagetable_pushes huser)
  cases hp : p.kPagetable with
  | none =>
      rw [hp] at hkern
      cases hkern
      exact hmid
  | some kern =>
      rw [hp] at hkern
      exact hmid.trans (releaseWalk_pushes hkern)

end Freeproc

end OperateSystem.Vm

import OperateSystem.Vm.Fork

/-!
# `fork` without memory

`fork` is expected to make a child or to leave everything as it was, however many pages
are free.  It does so unless the free pages end within the kernel page table of the child,
where a failed allocation is not looked at, or within the mirror of its memory, where
`freeproc` finds the memory of the child mapped while its size is still 0.
-/

namespace OperateSystem.Vm

open OperateSystem.PointerTree

/-- The child of process `i` in entry `j`: its memory is a copy of the memory of its parent
in pages that were free, with the same flags, and its kernel page table mirrors it. -/
structure Born (L : Layout) (s s' : Kernel) (i j user pid : ℕ) : Prop where
  slot : j < L.nproc ∧ (s.proc j).state = .unused
  others : ∀ k, k ≠ j → s'.proc k = s.proc k
  pid_eq : (s'.proc j).pid = pid
  size : (s'.proc j).sz = (s.proc i).sz
  copy : ∃ frame' user' kern', Live L s'.machine (s'.proc j) frame' user' kern' ∧
    ∀ vpn, vpn < pages (s.proc i).sz →
      pte2pa (entry s'.machine.mem user' vpn) ∈ s.machine.free ∧
      pteFlags (entry s'.machine.mem user' vpn) = pteFlags (entry s.machine.mem user vpn) ∧
      s'.machine.mem (pte2pa (entry s'.machine.mem user' vpn))
        = s.machine.mem (pte2pa (entry s.machine.mem user vpn))
  frame : ∀ page, page ∉ s.machine.free → s'.machine.mem page = s.machine.mem page

/-- The processes in use and the free pages are the same as before. -/
structure Untouched (L : Layout) (s s' : Kernel) : Prop where
  inUse : ∀ k, (s.proc k).state ≠ .unused → s'.proc k = s.proc k
  unused : ∀ k, k < L.nproc → (s.proc k).state = .unused → (s'.proc k).state = .unused
  nodup : s'.machine.free.Nodup
  free : ∀ page, page ∈ s'.machine.free ↔ page ∈ s.machine.free
  frame : ∀ page, page ∉ s.machine.free → s'.machine.mem page = s.machine.mem page

/-- What is expected of `fork`: there is a child, or nothing has happened. -/
def ForkSurvives (L : Layout) (s : Kernel) (i user : ℕ) : Prop :=
  (∃ pid s' j, fork L s i = .ok (some pid, s') ∧ Born L s s' i j user pid) ∨
    ∃ s', fork L s i = .ok (none, s') ∧ Untouched L s s'

section ForkSafety

variable {L : Layout} {s : Kernel} {i j : ℕ} {m' : Machine} {p : Proc}

theorem Forked.born {user : ℕ} (h : Forked L s i j m' p user) (hj : j < L.nproc)
    (hidle : Idle (s.proc j)) : Born L s (s.enter j p m') i j user s.nextpid := by
  obtain ⟨frame', user', kern', hlive, hcopy⟩ := h.live
  refine ⟨⟨hj, hidle.state⟩, fun k hk => Kernel.enter_of_ne hk, ?_, ?_, ?_, ?_⟩
  · rw [Kernel.enter_self]
    exact h.pid
  · rw [Kernel.enter_self]
    exact h.size
  · rw [Kernel.enter_self]
    refine ⟨frame', user', kern', hlive, ?_⟩
    intro vpn hvpn
    rw [← h.size] at hvpn
    refine ⟨?_, hcopy vpn hvpn⟩
    have hmem : pte2pa (entry m'.mem user' vpn) ∈ owned m' p := by
      rw [hlive.owned_eq]
      exact Or.inr (Or.inl (Or.inr ⟨vpn, hvpn, rfl⟩))
    exact ((h.moves.conserve _).mp (Or.inl hmem)).resolve_left (Set.notMem_empty _)
  · exact fun page hpage => h.moves.frame page (Set.notMem_empty page) hpage

theorem Moves.untouched (h : Moves ∅ ∅ s.machine m') (hidle : Idle (s.proc j)) (hp : Idle p) :
    Untouched L s (s.enter j p m') := by
  refine ⟨?_, ?_, h.nodup, ?_, fun page hpage => h.frame page (Set.notMem_empty page) hpage⟩
  · intro k huse
    apply Kernel.enter_of_ne
    rintro rfl
    exact huse hidle.state
  · intro k _ hunused
    by_cases heq : k = j
    · subst heq
      rw [Kernel.enter_self]
      exact hp.state
    · rw [Kernel.enter_of_ne heq]
      exact hunused
  · intro page
    change page ∈ m'.free ↔ page ∈ s.machine.free
    simpa using h.conserve page

/-- `fork` does what is expected of it exactly when there is no entry for a child, or the
free pages do not end within the kernel page table of the child or within the mirror of
its memory. -/
theorem fork_survives_iff (h : Vacancies L s) {frame user kern : ℕ}
    (hlive : Live L s.machine (s.proc i) frame user kern)
    (hparent : Apart s.machine (owned s.machine (s.proc i))) :
    ForkSurvives L s i user ↔ ∀ j, unusedEntry L s = some j →
      s.machine.free.length = 0 ∨
        (1 + kernelCost L (L.kstack j) ≤ s.machine.free.length ∧
          (s.machine.free.length < processCost L (L.kstack j) + childUser (s.proc i).sz ∨
            processCost L (L.kstack j) + childUser (s.proc i).sz
              + childKern L (L.kstack j) (s.proc i).sz ≤ s.machine.free.length)) := by
  rcases fork_spec h hlive hparent with ⟨hnone, hfork⟩ | ⟨j, hfind, hj, hidle, hcases⟩
  · refine iff_of_true (Or.inr ⟨s, hfork, ?_⟩) fun j hfind => ?_
    · exact ⟨fun _ _ => rfl, fun _ _ hunused => hunused, h.free.nodup, fun _ => Iff.rfl,
        fun _ _ => rfl⟩
    · rw [hnone] at hfind
      cases hfind
  · have hcost : 1 + kernelCost L (L.kstack j) ≤ processCost L (L.kstack j) := by
      rw [processCost]
      omega
    have hiff : ∀ {P : ℕ → Prop}, (∀ j', unusedEntry L s = some j' → P j') ↔ P j := by
      intro P
      rw [hfind]
      exact ⟨fun hall => hall j rfl, fun hP j' heq => Option.some.inj heq ▸ hP⟩
    rw [hiff]
    rcases hcases with ⟨hwhy, p, m', hfork, hp, -, -, hmoves⟩ | ⟨hwhy, e, hfork⟩ |
      ⟨hwhy, np, m', hfork, hforked⟩
    · exact iff_of_true (Or.inr ⟨_, hfork, hmoves.untouched hidle hp⟩) (by omega)
    · refine iff_of_false ?_ (by omega)
      rintro (⟨pid, s', j', hok, -⟩ | ⟨s', hok, -⟩)
      · rw [hfork] at hok
        cases hok
      · rw [hfork] at hok
        cases hok
    · exact iff_of_true (Or.inl ⟨_, _, j, hfork, hforked.born hj hidle⟩) (by omega)

/-- A process table with one process. -/
def lone (p : Proc) (k : ℕ) : Proc :=
  if k = 0 then { p with state := .runnable } else { Proc.zero with kstack := virt.kstack k }

theorem lone_unused {k : ℕ} (h : (lone p k).state = .unused) :
    lone p k = { Proc.zero with kstack := virt.kstack k } := by
  rw [lone] at h ⊢
  split at h
  · cases h
  · rename_i hne
    rw [if_neg hne]

/-- A process without memory beside one free page. -/
theorem exists_last_page : ∃ (s : Kernel) (frame user kern : ℕ), Vacancies virt s ∧
    Live virt s.machine (s.proc 0) frame user kern ∧
    Apart s.machine (owned s.machine (s.proc 0)) ∧ unusedEntry virt s = some 1 ∧
    s.machine.free.length = 1 := by
  obtain ⟨m₀, m, p, frame, user, kern, hfresh, hstack, hapart, -, hfree⟩ :=
    exists_fresh virt (by decide) (show 1 < 2 ^ 51 by decide)
  have hlo : virt.phystop ≤ p.kstack := by
    rw [hstack]
    exact virt.kstack_ge 0 (by decide)
  have hlive := hfresh.live hlo (show ProcState.runnable ≠ .unused by decide)
  refine ⟨⟨m, lone p, some 0, 2, 0⟩, frame, user, kern,
    ⟨hapart.mono (Set.empty_subset _), ?_, ?_, ?_⟩, hlive, hapart, rfl, hfree⟩
  · intro k _ hunused
    dsimp only
    rw [lone_unused hunused]
    exact ⟨rfl, rfl, rfl, rfl, rfl⟩
  · intro k _ hunused
    dsimp only
    rw [lone_unused hunused]
  · intro k _ hunused
    dsimp only
    rw [lone_unused hunused]
    exact show 0 < 2 ^ 52 by decide

theorem fork_survives_iff_last_page : ∃ (s : Kernel) (frame user kern : ℕ), Vacancies virt s ∧
    Live virt s.machine (s.proc 0) frame user kern ∧
    Apart s.machine (owned s.machine (s.proc 0)) ∧ s.machine.free.length = 1 ∧
    (ForkSurvives virt s 0 user ↔ ∀ j, unusedEntry virt s = some j →
      s.machine.free.length = 0 ∨
        (1 + kernelCost virt (virt.kstack j) ≤ s.machine.free.length ∧
          (s.machine.free.length < processCost virt (virt.kstack j) + childUser (s.proc 0).sz ∨
            processCost virt (virt.kstack j) + childUser (s.proc 0).sz
              + childKern virt (virt.kstack j) (s.proc 0).sz ≤ s.machine.free.length))) := by
  obtain ⟨s, frame, user, kern, hvacant, hlive, hparent, -, hfree⟩ := exists_last_page
  exact ⟨s, frame, user, kern, hvacant, hlive, hparent, hfree,
    fork_survives_iff hvacant hlive hparent⟩

theorem fork_not_survives : ¬ ∀ (L : Layout) (s : Kernel) (i frame user kern : ℕ),
    Vacancies L s → Live L s.machine (s.proc i) frame user kern →
    Apart s.machine (owned s.machine (s.proc i)) → ForkSurvives L s i user := by
  intro hall
  obtain ⟨s, frame, user, kern, hvacant, hlive, hparent, hfind, hfree⟩ := exists_last_page
  have hsurvives := hall virt s 0 frame user kern hvacant hlive hparent
  rcases fork_spec hvacant hlive hparent with ⟨hnone, -⟩ | ⟨j, -, -, -, hcases⟩
  · rw [hfind] at hnone
    cases hnone
  · have hcost : 0 < kernelCost virt (virt.kstack j) := by
      rw [kernelCost]
      omega
    have hmore : 1 + kernelCost virt (virt.kstack j) ≤ processCost virt (virt.kstack j) := by
      rw [processCost]
      omega
    rcases hcases with ⟨hwhy, -⟩ | ⟨-, e, hfork⟩ | ⟨hwhy, -⟩
    · omega
    · rcases hsurvives with ⟨pid, s', j', hok, -⟩ | ⟨s', hok, -⟩
      · rw [hfork] at hok
        cases hok
      · rw [hfork] at hok
        cases hok
    · omega

end ForkSafety

end OperateSystem.Vm

import OperateSystem.Core.Invariant
import OperateSystem.Sched.Waiting

/-!
# No parent sleeps over a dead child

While a process is in `wait` it holds its own lock, and a child needs that lock to become
a zombie.  So a child that the search has passed by stays alive until the search is over,
and one that exits after the parent has gone to sleep wakes it.  A child whose parent
exits is given to init, and then the lock that it takes may be the wrong one: for init the
argument fails.
-/

namespace OperateSystem.Waiting

open OperateSystem.Vm
open OperateSystem.Invariant

variable {nproc : ℕ}

/-! ## Locks -/

/-- The process locks held at a program counter of process `p`. -/
def Pc.holds (initproc p : Fin nproc) : Pc nproc → Fin nproc → Prop
  | .resumed _, q | .yieldLocked _, q | .sleepLocked, q | .slept, q | .exitSelf, q | .exited, q
  | .waitScan _ _, q | .waitFound _, q | .waitRelease, q | .waitSlept, q => q = p
  | .exitInit, q => q = initproc
  | .exitParentLocked originalParent, q => q = originalParent
  | .exitReparent originalParent _, q | .exitFound originalParent _, q
  | .exitZombie originalParent, q => q = originalParent ∨ q = p
  | .exitChild originalParent pp, q => q = originalParent ∨ q = p ∨ q = pp
  | .waitChild np, q => q = p ∨ q = np
  | .forkTest np, q | .forkRelease np, q => q = np
  | _, _ => False

/-- The locks at a program counter are different ones, and a process that has been
interrupted held none. -/
def Pc.ok (p : Fin nproc) : Pc nproc → Prop
  | .resumed next | .yieldLocked next => next.interruptible
  | .exitReparent originalParent _ | .exitFound originalParent _
  | .exitZombie originalParent => originalParent ≠ p
  | .exitChild originalParent pp => originalParent ≠ p ∧ pp ≠ p ∧ pp ≠ originalParent
  | .waitChild np => np ≠ p
  | _ => True

def State.Holds (initproc : Fin nproc) (s : State nproc) (p q : Fin nproc) : Prop :=
  s.run p ≠ .off ∧ (s.pc p).holds initproc p q

theorem Pc.interruptible.not_holds {initproc p : Fin nproc} {pc : Pc nproc}
    (h : pc.interruptible) (q : Fin nproc) : ¬ pc.holds initproc p q := by
  cases pc <;> simp_all [Pc.interruptible, Pc.holds]

theorem Pc.interruptible.ok {p : Fin nproc} {pc : Pc nproc} (h : pc.interruptible) : pc.ok p := by
  cases pc <;> simp_all [Pc.interruptible, Pc.ok]

/-! ## What a program counter says -/

/-- The parent that `exit` has read and is going to wake. -/
def Pc.original : Pc nproc → Option (Fin nproc)
  | .resumed next | .yieldLocked next => next.original
  | .exitParent originalParent | .exitParentLocked originalParent => some originalParent
  | .exitReparent originalParent _ | .exitFound originalParent _
  | .exitChild originalParent _ => some originalParent
  | _ => none

/-- The state of process `p` at a program counter. -/
def Coherent (p : Fin nproc) (run : Run) (state : ProcState) (chan : Option (Chan nproc)) :
    Pc nproc → Prop
  | .absent => run = .off ∧ state = .unused
  | .resumed _ => if run = .on then state = .running else state = .runnable
  | .slept => if run = .on then state = .running
      else state = .runnable ∨ (state = .sleeping ∧ chan = some .other)
  | .waitSlept => if run = .on then state = .running
      else state = .runnable ∨ (state = .sleeping ∧ chan = some (.proc p))
  | .exitZombie _ => run = .on ∧ state = .zombie
  | .exited => state = .zombie
  | _ => run = .on ∧ state = .running

/-- The search of process `p` has `c` behind it: it is in the loop of `wait` beyond slot
`c`, or asleep after the loop. -/
def State.Scanned (s : State nproc) (p c : Fin nproc) : Prop :=
  match s.pc p with
  | .waitScan np _ => (c : ℕ) < np
  | .waitFound np | .waitChild np => c < np
  | .waitSlept => s.state p = .sleeping
  | _ => False

structure SlotOk (initproc : Fin nproc) (s : State nproc) (p : Fin nproc) : Prop where
  ok : (s.pc p).ok p
  locks : ∀ q, s.Holds initproc p q → s.lock q = some (.proc p)
  coherent : Coherent p (s.run p) (s.state p) (s.chan p) (s.pc p)
  original : ∀ originalParent, (s.pc p).original = some originalParent →
    s.parent p = some originalParent ∨ s.parent p = some initproc

structure Inv (initproc : Fin nproc) (s : State nproc) : Prop where
  slots : ∀ p, SlotOk initproc s p
  scanned : ∀ p c, p ≠ initproc → s.Scanned p c → s.parent c = some p → s.state c ≠ .zombie

section Frame

variable {initproc : Fin nproc} {s s' : State nproc} {p q : Fin nproc}

/-- A slot that a step leaves alone. -/
theorem SlotOk.frame (h : SlotOk initproc s p) (hpc : s'.pc p = s.pc p)
    (hrun : s'.run p = s.run p) (hstate : s'.state p = s.state p) (hchan : s'.chan p = s.chan p)
    (hparent : s'.parent p = s.parent p)
    (hlock : ∀ q, s.lock q = some (.proc p) → s'.lock q = some (.proc p)) :
    SlotOk initproc s' p := by
  refine ⟨by rw [hpc]; exact h.ok, fun q hq => hlock q (h.locks q ?_), ?_, ?_⟩
  · rwa [State.Holds, hpc, hrun] at hq
  · rw [hpc, hrun, hstate, hchan]
    exact h.coherent
  · rw [hpc, hparent]
    exact h.original

theorem SlotOk.not_scanned (h : SlotOk initproc s p) (hzombie : s.state p = .zombie)
    (c : Fin nproc) : ¬ s.Scanned p c := by
  have hcoherent := h.coherent
  rw [State.Scanned]
  cases hpc : s.pc p <;> simp_all [Coherent]

/-- A step of process `p` in its own slot. -/
theorem Inv.own (h : Inv initproc s) (hslot : SlotOk initproc s' p)
    (hothers : ∀ r, r ≠ p → s'.pc r = s.pc r ∧ s'.run r = s.run r ∧ s'.state r = s.state r ∧
      s'.chan r = s.chan r)
    (hparent : s'.parent = s.parent)
    (hlock : ∀ q, s'.lock q = s.lock q ∨ s.lock q = none ∨ s.lock q = some (.proc p))
    (hscanned : p ≠ initproc → ∀ c, s'.Scanned p c → s.parent c = some p →
      s.Scanned p c ∨ s.state c ≠ .zombie)
    (hzombie : s'.state p = .zombie → s.state p = .zombie ∨
      ∀ r, r ≠ initproc → r ≠ p → s.parent p = some r → ¬ s.Scanned r p) :
    Inv initproc s' := by
  refine ⟨fun r => ?_, fun r c hr hc hchild => ?_⟩
  · by_cases heq : r = p
    · exact heq ▸ hslot
    · obtain ⟨hpc, hrun, hstate, hchan⟩ := hothers r heq
      refine (h.slots r).frame hpc hrun hstate hchan (by rw [hparent]) fun q hq => ?_
      rcases hlock q with hsame | hnone | hmine
      · rw [hsame, hq]
      · simp [hnone] at hq
      · rw [hmine] at hq
        exact absurd (Agent.proc.inj (Option.some.inj hq)).symm heq
  · rw [hparent] at hchild
    -- The search is that of `p` or of another process, and so is the child.
    by_cases hrp : r = p
    · subst hrp
      by_cases hcr : c = r
      · subst hcr
        intro hdead
        exact hslot.not_scanned hdead c hc
      · rw [(hothers c hcr).2.2.1]
        rcases hscanned hr c hc hchild with hold | hnew
        · exact h.scanned r c hr hold hchild
        · exact hnew
    · obtain ⟨hpc, -, hstate, -⟩ := hothers r hrp
      have hold : s.Scanned r c := by
        simp only [State.Scanned, hpc, hstate] at hc ⊢
        exact hc
      by_cases hcp : c = p
      · subst hcp
        intro hdead
        rcases hzombie hdead with hdead' | hnot
        · exact h.scanned r c hr hold hchild hdead'
        · exact hnot r hr hrp hchild hold
      · rw [(hothers c hcp).2.2.1]
        exact h.scanned r c hr hold hchild

/-! ## Changes to the slots of others -/

theorem Inv.setLock (h : Inv initproc s) (holder : Option (Agent nproc))
    (hlock : ∀ r, s.lock q ≠ some (.proc r)) : Inv initproc (s.setLock q holder) := by
  refine ⟨fun r => (h.slots r).frame rfl rfl rfl rfl rfl fun q' hq' => ?_, h.scanned⟩
  have hne : q' ≠ q := by
    rintro rfl
    exact hlock r hq'
  simpa [hne] using hq'

/-- Waking a process ends its sleep only. -/
theorem Inv.wake (h : Inv initproc s) (hsleep : s.state q = .sleeping) :
    Inv initproc (s.setState q .runnable) := by
  refine ⟨fun r => ?_, fun r c hr hc hchild => ?_⟩
  · by_cases heq : r = q
    · subst heq
      obtain ⟨hok, hlocks, hcoherent, horiginal⟩ := h.slots r
      refine ⟨hok, hlocks, ?_, horiginal⟩
      cases hpc : s.pc r <;> simp_all [Coherent]
    · exact (h.slots r).frame rfl rfl (by simp [heq]) rfl rfl fun _ hq => hq
  · have hold : s.Scanned r c := by
      simp only [State.Scanned, State.setState_pc, State.setState_state] at hc ⊢
      by_cases heq : r = q
      · subst heq
        cases hpc : s.pc r <;> simp_all
      · simpa [heq] using hc
    have hlive := h.scanned r c hr hold hchild
    by_cases heq : c = q
    · simp [heq]
    · simpa [heq] using hlive

theorem Inv.wakeup1 (h : Inv initproc s) (q : Fin nproc) : Inv initproc (s.wakeup1 q) := by
  rw [State.wakeup1]
  split
  · rename_i hsleep
    exact h.wake hsleep.2
  · exact h

theorem Inv.reparent (h : Inv initproc s) (pp : Fin nproc) :
    Inv initproc (s.setParent pp (some initproc)) := by
  refine ⟨fun r => ?_, fun r c hr hc hchild => ?_⟩
  · by_cases heq : r = pp
    · subst heq
      obtain ⟨hok, hlocks, hcoherent, -⟩ := h.slots r
      exact ⟨hok, hlocks, hcoherent, fun _ _ => Or.inr (by simp)⟩
    · exact (h.slots r).frame rfl rfl rfl rfl (by simp [heq]) fun _ hq => hq
  · by_cases heq : c = pp
    · subst heq
      simp only [State.setParent_parent, Function.update_self, Option.some.injEq] at hchild
      exact absurd hchild.symm hr
    · rw [State.setParent_parent, Function.update_of_ne heq] at hchild
      exact h.scanned r c hr hc hchild

/-- The thread of a zombie whose lock is taken by another process has left its CPU. -/
theorem Inv.run_off (h : Inv initproc s) (hzombie : s.state q = .zombie) (hne : p ≠ q)
    (hlock : s.lock q = some (.proc p)) : s.run q = .off := by
  by_contra hrun
  have hholds : s.Holds initproc q q := by
    have hcoherent := (h.slots q).coherent
    refine ⟨hrun, ?_⟩
    cases hpc : s.pc q <;> simp_all [Coherent, Pc.holds]
  rw [(h.slots q).locks q hholds] at hlock
  exact hne (Agent.proc.inj (Option.some.inj hlock)).symm

theorem Inv.freeproc (h : Inv initproc s) (hrun : s.run q = .off) :
    Inv initproc (s.freeproc q) := by
  refine ⟨fun r => ?_, fun r c hr hc hchild => ?_⟩
  · by_cases heq : r = q
    · subst heq
      refine ⟨by simp [Pc.ok], fun q hq => ?_, by simp [Coherent, hrun], by simp [Pc.original]⟩
      exact absurd hrun hq.1
    · exact (h.slots r).frame (by simp [heq]) rfl (by simp [heq]) (by simp [heq]) (by simp [heq])
        fun _ hq => hq
  · by_cases heq : c = q
    · simp [heq] at hchild
    · simp only [State.freeproc_parent, Function.update_of_ne heq] at hchild
      simp only [State.freeproc_state, Function.update_of_ne heq]
      refine h.scanned r c hr ?_ hchild
      by_cases hrq : r = q
      · simp [State.Scanned, hrq] at hc
      · simpa [State.Scanned, hrq] using hc

theorem Inv.create (h : Inv initproc s) (hunused : s.state q = .unused) (p : Fin nproc) :
    Inv initproc (s.create q p) := by
  have hrun : s.run q = .off := by
    have hcoherent := (h.slots q).coherent
    cases hpc : s.pc q <;> simp_all [Coherent]
  refine ⟨fun r => ?_, fun r c hr hc hchild => ?_⟩
  · by_cases heq : r = q
    · subst heq
      refine ⟨by simp [Pc.ok, Pc.interruptible], fun q hq => ?_, by simp [Coherent, hrun],
        by simp [Pc.original]⟩
      exact absurd hrun hq.1
    · exact (h.slots r).frame (by simp [heq]) rfl (by simp [heq]) rfl (by simp [heq])
        fun _ hq => hq
  · by_cases heq : c = q
    · simp [heq]
    · simp only [State.create_parent, Function.update_of_ne heq] at hchild
      simp only [State.create_state, Function.update_of_ne heq]
      refine h.scanned r c hr ?_ hchild
      by_cases hrq : r = q
      · simp [State.Scanned, hrq] at hc
      · simpa [State.Scanned, hrq] using hc

end Frame

/-! ## The code of a process -/

section Code

variable {initproc : Fin nproc} {s : State nproc} {p q : Fin nproc} {pc pc' : Pc nproc}

theorem Acquires.holds (h : Acquires initproc p pc q pc') :
    ∀ j, pc'.holds initproc p j → pc.holds initproc p j ∨ j = q := by
  cases h <;> simp [Pc.holds]

theorem Acquires.ok (h : Acquires initproc p pc q pc') (hnot : ¬ pc.holds initproc p q)
    (hok : pc.ok p) : pc'.ok p := by
  cases h <;> simp_all [Pc.holds, Pc.ok]
  exact fun heq => hnot heq.symm

theorem Acquires.original (h : Acquires initproc p pc q pc') : pc'.original = pc.original := by
  cases h <;> rfl

theorem Acquires.coherent (h : Acquires initproc p pc q pc') {state : ProcState}
    {chan : Option (Chan nproc)} (hcoherent : Coherent p .on state chan pc) :
    Coherent p .on state chan pc' := by
  cases h with
  | @yield next hnext => cases pc <;> simp_all [Pc.interruptible, Coherent]
  | _ => exact hcoherent

theorem Releases.holds (h : Releases s p pc q pc') (hok : pc.ok p) (initproc : Fin nproc) :
    pc.holds initproc p q ∧
      ∀ j, pc'.holds initproc p j → pc.holds initproc p j ∧ j ≠ q := by
  cases h with
  | resumed => exact ⟨rfl, fun j hj => absurd hj (Pc.interruptible.not_holds hok j)⟩
  | exitZombie => exact ⟨Or.inl rfl, fun j hj => ⟨Or.inr hj, fun heq => hok (heq.symm.trans hj)⟩⟩
  | waitChild hlive =>
      exact ⟨Or.inr rfl, fun j hj => ⟨Or.inl hj, fun heq => hok (heq.symm.trans hj)⟩⟩
  | waitFail hdead =>
      exact ⟨Or.inr rfl, fun j hj => ⟨Or.inl hj, fun heq => hok (heq.symm.trans hj)⟩⟩
  | _ => exact ⟨rfl, fun j hj => hj.elim⟩

theorem Releases.ok (h : Releases s p pc q pc') (hok : pc.ok p) : pc'.ok p := by
  cases h with
  | resumed => exact Pc.interruptible.ok hok
  | _ => trivial

theorem Releases.original (h : Releases s p pc q pc') {originalParent : Fin nproc}
    (horiginal : pc'.original = some originalParent) :
    pc.original = some originalParent ∨ s.parent p = some originalParent := by
  cases h with
  | resumed => exact Or.inl horiginal
  | exitSelf hparent =>
      refine Or.inr ?_
      rw [hparent]
      exact horiginal
  | _ => simp [Pc.original] at horiginal

theorem Releases.coherent (h : Releases s p pc q pc') (hok : pc.ok p) {state : ProcState}
    {chan : Option (Chan nproc)} (hcoherent : Coherent p .on state chan pc) :
    Coherent p .on state chan pc' := by
  cases h with
  | resumed => cases pc' <;> simp_all [Pc.ok, Pc.interruptible, Coherent]
  | exitZombie => exact hcoherent.2
  | _ => exact hcoherent

end Code

/-! ## Steps -/

section Steps

variable {initproc : Fin nproc} {s s' : State nproc} {p q : Fin nproc} {pc : Pc nproc}

theorem Inv.acquire (h : Inv initproc s) (hrun : s.run p = .on)
    (hcode : Acquires initproc p (s.pc p) q pc) (hfree : s.lock q = none) :
    Inv initproc ((s.setLock q (some (.proc p))).goto p pc) := by
  obtain ⟨hok, hlocks, hcoherent, horiginal⟩ := h.slots p
  have hnot : ¬ (s.pc p).holds initproc p q := fun hholds => by
    have hheld := hlocks q ⟨by simp [hrun], hholds⟩
    simp [hfree] at hheld
  refine h.own (p := p) ⟨?_, fun j hj => ?_, ?_, ?_⟩ (fun r hr => by simp [hr]) rfl (fun j => ?_)
    (fun _ c hc hchild => ?_) (fun hdead => Or.inl hdead)
  · simpa using hcode.ok hnot hok
  · simp only [State.Holds, State.goto_pc, Function.update_self] at hj
    by_cases heq : j = q
    · simp [heq]
    · have hheld := hlocks j ⟨by simp [hrun], (hcode.holds j hj.2).resolve_right heq⟩
      simpa [heq] using hheld
  · simpa [hrun] using hcode.coherent (by simpa [hrun] using hcoherent)
  · simpa [hcode.original] using horiginal
  · by_cases heq : j = q
    · exact Or.inr (Or.inl (heq ▸ hfree))
    · exact Or.inl (by simp [heq])
  · -- A search starts with nothing behind it and goes on where it was.
    refine Or.inl ?_
    simp only [State.Scanned, State.goto_pc, Function.update_self] at hc ⊢
    generalize s.pc p = before at hcode ⊢
    cases hcode with
    | wait => exact absurd hc (Nat.not_lt_zero _)
    | waitChild => exact hc
    | _ => exact hc.elim

/-- A process gives up the lock of `q` and goes on at `pc`. -/
theorem Inv.goOn (h : Inv initproc s) (hrun : s.run p = .on)
    (hheld : (s.pc p).holds initproc p q)
    (hrest : ∀ j, pc.holds initproc p j → (s.pc p).holds initproc p j ∧ j ≠ q) (hok : pc.ok p)
    (hcoherent : Coherent p .on (s.state p) (s.chan p) pc)
    (horiginal : ∀ originalParent, pc.original = some originalParent →
      s.parent p = some originalParent ∨ s.parent p = some initproc)
    (hscanned : ∀ c, ((s.setLock q none).goto p pc).Scanned p c → s.Scanned p c ∨
      s.state c ≠ .zombie) : Inv initproc ((s.setLock q none).goto p pc) := by
  have hlocks := (h.slots p).locks
  have hmine := hlocks q ⟨by simp [hrun], hheld⟩
  refine h.own (p := p) ⟨by simpa using hok, fun j hj => ?_, by simpa [hrun] using hcoherent,
    by simpa using horiginal⟩ (fun r hr => by simp [hr]) rfl (fun j => ?_)
    (fun _ c hc _ => hscanned c hc) (fun hdead => Or.inl hdead)
  · simp only [State.Holds, State.goto_pc, Function.update_self] at hj
    obtain ⟨hold, hne⟩ := hrest j hj.2
    simpa [hne] using hlocks j ⟨by simp [hrun], hold⟩
  · by_cases heq : j = q
    · exact Or.inr (Or.inr (heq ▸ hmine))
    · exact Or.inl (by simp [heq])

theorem Inv.release (h : Inv initproc s) (hrun : s.run p = .on)
    (hcode : Releases s p (s.pc p) q pc) : Inv initproc ((s.setLock q none).goto p pc) := by
  obtain ⟨hok, hlocks, hcoherent, horiginal⟩ := h.slots p
  obtain ⟨hheld, hrest⟩ := hcode.holds hok initproc
  rw [hrun] at hcoherent
  refine h.goOn hrun hheld hrest (hcode.ok hok) (hcode.coherent hok hcoherent) ?_ fun c hc => ?_
  · intro originalParent hnew
    rcases hcode.original hnew with hold | hparent
    · exact horiginal originalParent hold
    · exact Or.inl hparent
  · simp only [State.Scanned, State.goto_pc, Function.update_self] at hc ⊢
    generalize hpc : s.pc p = before at hcode ⊢
    cases hcode with
    | waitChild hlive =>
        -- The child just looked at is not a zombie.
        by_cases heq : c = q
        · exact Or.inr (heq ▸ hlive)
        · refine Or.inl ?_
          have hval : (c : ℕ) ≠ q := fun hval => heq (Fin.ext hval)
          simp only at hc ⊢
          exact Fin.lt_def.mpr (by omega)
    | resumed => cases pc <;> simp_all [Pc.ok, Pc.interruptible]
    | _ => simp_all

/-- A process goes on at `pc` with locks that it has. -/
theorem Inv.goto (h : Inv initproc s) (hrun : s.run p = .on)
    (hholds : ∀ j, pc.holds initproc p j → (s.pc p).holds initproc p j) (hok : pc.ok p)
    (hcoherent : Coherent p .on (s.state p) (s.chan p) pc)
    (horiginal : ∀ originalParent, pc.original = some originalParent →
      (s.pc p).original = some originalParent)
    (hscanned : ∀ c, (s.goto p pc).Scanned p c → s.parent c = some p → s.Scanned p c) :
    Inv initproc (s.goto p pc) := by
  have hslot := h.slots p
  refine h.own (p := p) ⟨by simpa using hok, fun j hj => hslot.locks j ?_,
    by simpa [hrun] using hcoherent, fun originalParent hnew => hslot.original originalParent ?_⟩
    (fun r hr => by simp [hr]) rfl (fun _ => Or.inl rfl)
    (fun _ c hc hchild => Or.inl (hscanned c hc hchild)) (fun hdead => Or.inl hdead)
  · simp only [State.Holds, State.goto_pc, State.goto_run, Function.update_self] at hj
    exact ⟨hj.1, hholds j hj.2⟩
  · simp only [State.goto_pc, Function.update_self] at hnew
    exact horiginal originalParent hnew

theorem Inv.move (h : Inv initproc s) (hrun : s.run p = .on) (hcode : Moves s p (s.pc p) pc) :
    Inv initproc (s.goto p pc) := by
  obtain ⟨hok, -, hcoherent, -⟩ := h.slots p
  rw [hrun] at hcoherent
  generalize hpc : s.pc p = before at hcode hok hcoherent
  refine h.goto hrun ?_ ?_ ?_ ?_ fun c hc hchild => ?_
  · rw [hpc]
    cases hcode <;> simp [Pc.holds]
  · cases hcode <;> simp_all [Pc.ok]
  · cases hcode <;> exact hcoherent
  · rw [hpc]
    cases hcode <;> simp [Pc.original]
  · simp only [State.Scanned, State.goto_pc, Function.update_self] at hc ⊢
    cases hcode with
    | @wait np havekids hother =>
        rw [hpc]
        have hval : (c : ℕ) ≠ np := by
          intro hval
          obtain rfl : c = np := Fin.ext hval
          exact hother hchild
        simp only at hc ⊢
        omega
    | waitChild hparent =>
        rw [hpc]
        exact hc
    | _ => exact hc.elim

/-- The process gives up its CPU in the state it has given itself. -/
theorem Inv.sched (h : Inv initproc s) (hrun : s.run p = .on) (hheld : (s.pc p).holds initproc p p)
    {state : ProcState} {chan : Option (Chan nproc)} (hok : pc.ok p)
    (hown : ∀ j, pc.holds initproc p j → j = p) (hcoherent : Coherent p .leaving state chan pc)
    (horiginal : pc.original = (s.pc p).original) (hstate : state ≠ .zombie)
    (hscanned : ∀ c, ((((s.setChan p chan).setState p state).goto p pc).setRun p .leaving).Scanned
      p c → s.Scanned p c) :
    Inv initproc ((((s.setChan p chan).setState p state).goto p pc).setRun p .leaving) := by
  have hlocks := (h.slots p).locks
  refine h.own (p := p) ⟨by simpa using hok, fun j hj => ?_, by simpa using hcoherent, ?_⟩
    (fun r hr => by simp [hr]) rfl (fun _ => Or.inl rfl) (fun _ c hc _ => Or.inl (hscanned c hc))
    (fun hdead => ?_)
  · simp only [State.Holds, State.setRun_pc, State.goto_pc, Function.update_self] at hj
    rw [hown j hj.2]
    exact hlocks p ⟨by simp [hrun], hheld⟩
  · simpa [horiginal] using (h.slots p).original
  · simp [hstate] at hdead

theorem Inv.switchTo (h : Inv initproc s) (hrun : s.run p = .off) (hfree : s.lock p = none)
    (hstate : s.state p = .runnable) :
    Inv initproc (((s.setState p .running).setLock p (some (.proc p))).setRun p .on) := by
  obtain ⟨hok, hlocks, hcoherent, horiginal⟩ := h.slots p
  refine h.own (p := p) ⟨hok, fun j hj => ?_, ?_, horiginal⟩ (fun r hr => by simp [hr]) rfl
    (fun j => ?_) (fun _ c hc _ => ?_) (fun hdead => ?_)
  · -- Wherever a process can be switched to it expects its own lock.
    have hj' : j = p := by
      have hpc := hj.2
      simp only [State.setRun_pc, State.setLock_pc, State.setState_pc] at hpc
      cases hcase : s.pc p <;> simp_all [Coherent, Pc.holds]
    simp [hj']
  · simp only [State.setRun_pc, State.setLock_pc, State.setState_pc]
    cases hcase : s.pc p <;> simp_all [Coherent]
  · by_cases heq : j = p
    · exact Or.inr (Or.inl (heq ▸ hfree))
    · exact Or.inl (by simp [heq])
  · simp only [State.Scanned, State.setRun_pc, State.setLock_pc, State.setState_pc] at hc ⊢
    cases hcase : s.pc p <;> simp_all
  · simp at hdead

theorem Inv.switchFrom (h : Inv initproc s) (hrun : s.run p = .leaving) :
    Inv initproc ((s.setLock p none).setRun p .off) := by
  obtain ⟨hok, hlocks, hcoherent, horiginal⟩ := h.slots p
  have hheld : s.lock p = some (.proc p) := by
    refine hlocks p ⟨by simp [hrun], ?_⟩
    cases hcase : s.pc p <;> simp_all [Coherent, Pc.holds]
  refine h.own (p := p) ⟨hok, fun j hj => ?_, ?_, horiginal⟩ (fun r hr => by simp [hr]) rfl
    (fun j => ?_) (fun _ c hc _ => Or.inl hc) (fun hdead => Or.inl hdead)
  · simp [State.Holds] at hj
  · simp only [State.setRun_pc, State.setLock_pc, State.setRun_run, Function.update_self]
    cases hcase : s.pc p <;> simp_all [Coherent]
  · by_cases heq : j = p
    · exact Or.inr (Or.inr (heq ▸ hheld))
    · exact Or.inl (by simp [heq])

theorem Inv.setChan (h : Inv initproc s) (hrun : s.run p = .on) (chan : Option (Chan nproc)) :
    Inv initproc (s.setChan p chan) := by
  obtain ⟨hok, hlocks, hcoherent, horiginal⟩ := h.slots p
  refine h.own (p := p) ⟨hok, hlocks, ?_, horiginal⟩ (fun r hr => by simp [hr]) rfl
    (fun _ => Or.inl rfl) (fun _ c hc _ => Or.inl hc) (fun hdead => Or.inl hdead)
  simp only [State.setChan_pc, State.setChan_run, State.setChan_state]
  cases hcase : s.pc p <;> simp_all [Coherent]

@[simp]
theorem State.wakeup1_pc (s : State nproc) (q : Fin nproc) : (s.wakeup1 q).pc = s.pc := by
  rw [State.wakeup1]
  split <;> rfl

@[simp]
theorem State.wakeup1_run (s : State nproc) (q : Fin nproc) : (s.wakeup1 q).run = s.run := by
  rw [State.wakeup1]
  split <;> rfl

@[simp]
theorem State.wakeup1_parent (s : State nproc) (q : Fin nproc) :
    (s.wakeup1 q).parent = s.parent := by
  rw [State.wakeup1]
  split <;> rfl

@[simp]
theorem State.wakeup1_chan (s : State nproc) (q : Fin nproc) : (s.wakeup1 q).chan = s.chan := by
  rw [State.wakeup1]
  split <;> rfl

/-- After `wakeup1` the process is not asleep in `wait`. -/
theorem State.wakeup1_awake (s : State nproc) (q : Fin nproc)
    (hchan : (s.wakeup1 q).chan q = some (.proc q)) : (s.wakeup1 q).state q ≠ .sleeping := by
  rw [State.wakeup1_chan] at hchan
  rw [State.wakeup1]
  split
  · simp
  · rename_i hawake
    exact fun hsleep => hawake ⟨hchan, hsleep⟩

theorem State.wakeup1_running (hstate : s.state p = .running) (q : Fin nproc) :
    (s.wakeup1 q).state p = .running := by
  rw [State.wakeup1]
  split
  · rename_i hsleep
    have hne : p ≠ q := by
      rintro rfl
      simp [hstate] at hsleep
    simpa [hne] using hstate
  · exact hstate

/-- The parent of a process that is about to become a zombie has no search running and is
not asleep in `wait`. -/
theorem Inv.parent_not_scanning (h : Inv initproc s) {originalParent : Fin nproc}
    (hrun : s.run p = .on) (hpc : s.pc p = .exitReparent originalParent nproc)
    (hawake : s.chan originalParent = some (.proc originalParent) →
      s.state originalParent ≠ .sleeping) {r : Fin nproc} (hr : r ≠ initproc) (hrp : r ≠ p)
    (hparent : s.parent p = some r) : ¬ s.Scanned r p := by
  obtain ⟨hok, hlocks, -, horiginal⟩ := h.slots p
  have heq : r = originalParent := by
    rcases horiginal originalParent (by rw [hpc]; rfl) with hmine | hinit
    · exact Option.some.inj (hparent.symm.trans hmine)
    · exact absurd (Option.some.inj (hparent.symm.trans hinit)) hr
  subst heq
  have hlock : s.lock r = some (.proc p) := by
    refine hlocks r ⟨by simp [hrun], ?_⟩
    rw [hpc]
    exact Or.inl rfl
  intro hscanned
  have hcoherent := (h.slots r).coherent
  -- Whoever searches holds its own lock.
  have hbusy : ¬ s.Holds initproc r r := by
    intro hholds
    rw [(h.slots r).locks r hholds] at hlock
    exact hrp (Agent.proc.inj (Option.some.inj hlock))
  cases hcase : s.pc r with
  | waitScan np havekids =>
      rw [hcase] at hcoherent
      exact hbusy ⟨by simp [hcoherent.1], by rw [hcase]; rfl⟩
  | waitFound np =>
      rw [hcase] at hcoherent
      exact hbusy ⟨by simp [hcoherent.1], by rw [hcase]; rfl⟩
  | waitChild np =>
      rw [hcase] at hcoherent
      exact hbusy ⟨by simp [hcoherent.1], by rw [hcase]; exact Or.inl rfl⟩
  | waitSlept =>
      simp only [State.Scanned, hcase] at hscanned
      simp only [hcase, Coherent, hscanned] at hcoherent
      split at hcoherent
      · simp at hcoherent
      · exact hawake (by simpa using hcoherent) hscanned
  | _ => simp [State.Scanned, hcase] at hscanned

theorem Inv.zombie (h : Inv initproc s) {originalParent : Fin nproc} (hrun : s.run p = .on)
    (hpc : s.pc p = .exitReparent originalParent nproc) :
    Inv initproc (((s.wakeup1 originalParent).setState p .zombie).goto p
      (.exitZombie originalParent)) := by
  have hwoken := h.wakeup1 originalParent
  obtain ⟨hok, hlocks, -, -⟩ := hwoken.slots p
  have hpc' : (s.wakeup1 originalParent).pc p = .exitReparent originalParent nproc := by
    rw [State.wakeup1_pc, hpc]
  have hrun' : (s.wakeup1 originalParent).run p = .on := by rw [State.wakeup1_run, hrun]
  refine hwoken.own (p := p) ⟨?_, fun j hj => hlocks j ?_, by simp [Coherent, hrun],
    by simp [Pc.original]⟩ (fun r hr => by simp [hr]) rfl (fun _ => Or.inl rfl)
    (fun _ c hc _ => by simp [State.Scanned] at hc) (fun _ => Or.inr fun r hr hrp hparent => ?_)
  · rw [hpc'] at hok
    simpa [Pc.ok] using hok
  · refine ⟨by simp [hrun'], ?_⟩
    rw [hpc']
    simpa [State.Holds, Pc.holds] using hj.2
  · exact hwoken.parent_not_scanning hrun' hpc' (State.wakeup1_awake s originalParent) hr hrp
      hparent

theorem Inv.step (h : Inv initproc s) (hstep : Step initproc s s') : Inv initproc s' := by
  cases hstep with
  | otherAcquire hfree => exact h.setLock _ (by simp [hfree])
  | otherWake hlock hstate => exact h.wake hstate
  | otherKill hlock =>
      exact ⟨fun p => (h.slots p).frame rfl rfl rfl rfl rfl fun _ hq => hq, h.scanned⟩
  | otherRelease hlock => exact h.setLock _ (by simp [hlock])
  | switchTo hrun hfree hstate => exact h.switchTo hrun hfree hstate
  | switchFrom hrun => exact h.switchFrom hrun
  | acquire hrun hcode hfree => exact h.acquire hrun hcode hfree
  | release hrun hcode => exact h.release hrun hcode
  | move hrun hcode => exact h.move hrun hcode
  | @yield p next hrun hpc =>
      have hsame : s.setChan p (s.chan p) = s := by simp [State.setChan]
      have hok := (h.slots p).ok
      rw [hpc] at hok
      have hnew : Inv initproc ((((s.setChan p (s.chan p)).setState p .runnable).goto p
          (.resumed next)).setRun p .leaving) :=
        h.sched hrun (by rw [hpc]; rfl) hok (fun _ hj => hj) (by simp [Coherent])
          (by rw [hpc]; rfl) (by simp) (fun c hc => by simp [State.Scanned] at hc)
      rwa [hsame] at hnew
  | @sleep p hrun hpc =>
      exact h.sched hrun (by rw [hpc]; rfl) trivial (fun _ hj => hj) (by simp [Coherent])
        (by rw [hpc]; rfl) (by simp) (fun c hc => by simp [State.Scanned] at hc)
  | @slept p hrun hpc =>
      have hstate : s.state p = .running := by
        have hcoherent := (h.slots p).coherent
        simpa [hpc, hrun, Coherent] using hcoherent
      refine (h.setChan hrun none).goOn hrun (by simp [hpc, Pc.holds]) (fun _ hj => hj.elim) trivial
        ⟨rfl, hstate⟩ (by simp [Pc.original]) (fun c hc => by simp [State.Scanned] at hc)
  | @exitInit p hrun hpc =>
      have hstate : s.state p = .running := by
        have hcoherent := (h.slots p).coherent
        simpa [hpc, hrun, Coherent] using hcoherent
      exact (h.wakeup1 initproc).goOn (by simp [hrun]) (by simp [hpc, Pc.holds])
        (fun _ hj => hj.elim) trivial ⟨rfl, State.wakeup1_running hstate initproc⟩
        (by simp [Pc.original]) (fun c hc => by simp [State.Scanned] at hc)
  | @reparent p originalParent pp hrun hpc =>
      obtain ⟨hok, -, hcoherent, -⟩ := h.slots p
      rw [hpc] at hok hcoherent
      have hgiven := h.reparent pp
      refine hgiven.goOn hrun (by simp [hpc, Pc.holds]) (fun j hj => ?_) hok.1
        (by simpa [hrun, Coherent] using hcoherent) (fun o ho => ?_)
        (fun c hc => by simp [State.Scanned] at hc)
      · simp only [State.setParent_pc, hpc]
        rcases hj with rfl | rfl
        · exact ⟨Or.inl rfl, hok.2.2.symm⟩
        · exact ⟨Or.inr (Or.inl rfl), hok.2.1.symm⟩
      · refine (hgiven.slots p).original o ?_
        rw [State.setParent_pc, hpc]
        exact ho
  | zombie hrun hpc => exact h.zombie hrun hpc
  | @exited p hrun hpc =>
      obtain ⟨hok, hlocks, hcoherent, horiginal⟩ := h.slots p
      rw [hpc] at hcoherent
      refine h.own (p := p) ⟨hok, fun j hj => hlocks j ⟨by simp [hrun], hj.2⟩, ?_, horiginal⟩
        (fun r hr => by simp [hr]) rfl (fun _ => Or.inl rfl) (fun _ c hc _ => Or.inl hc)
        (fun hdead => Or.inl hdead)
      simpa [hpc, Coherent] using hcoherent
  | @waitFree p np hrun hpc hstate =>
      obtain ⟨hok, hlocks, hcoherent, -⟩ := h.slots p
      rw [hpc] at hok hcoherent
      have hlock := hlocks np ⟨by simp [hrun], by simp [hpc, Pc.holds]⟩
      have hne : p ≠ np := Ne.symm hok
      refine (h.freeproc (h.run_off hstate hne hlock)).goOn hrun (by simp [hpc, hne, Pc.holds])
        (fun j hj => ?_) trivial (by simpa [hne, hrun, Coherent] using hcoherent)
        (by simp [Pc.original])
        (fun c hc => by simp [State.Scanned] at hc)
      simp only [Pc.holds] at hj
      simp [hpc, hne, Pc.holds, hj]
  | @waitSleep p havekids hrun hpc hkids hkilled =>
      refine h.sched hrun (by rw [hpc]; rfl) trivial (fun _ hj => hj) (by simp [Coherent])
        (by rw [hpc]; rfl) (by simp) (fun c _ => ?_)
      -- The search is over, so every slot is behind it.
      rw [State.Scanned, hpc]
      exact c.isLt
  | @waitSlept p hrun hpc =>
      have hstate : s.state p = .running := by
        have hcoherent := (h.slots p).coherent
        simpa [hpc, hrun, Coherent] using hcoherent
      exact (h.setChan hrun none).goto hrun (by simp [hpc, Pc.holds]) trivial ⟨rfl, hstate⟩
        (by simp [Pc.original]) (fun c hc => by simp [State.Scanned] at hc)
  | @fork p np hrun hpc hstate =>
      have hcoherent := (h.slots p).coherent
      rw [hpc] at hcoherent
      have hne : p ≠ np := by
        rintro rfl
        simp [hstate, Coherent] at hcoherent
      exact (h.create hstate p).goto hrun (by simp [hpc, hne, Pc.holds]) trivial
        ⟨rfl, by simpa [hne] using hcoherent.2⟩ (by simp [Pc.original])
        (fun c hc => by simp [State.Scanned] at hc)

theorem inv_boot (initproc : Fin nproc) : Inv initproc (State.boot initproc) := by
  refine ⟨fun p => ⟨?_, fun q hq => ?_, ?_, ?_⟩, fun p c _ hc => ?_⟩
  · by_cases heq : p = initproc <;> simp [heq, Pc.ok, Pc.interruptible]
  · simp [State.Holds] at hq
  · by_cases heq : p = initproc <;> simp [heq, Coherent]
  · by_cases heq : p = initproc <;> simp [heq, Pc.original]
  · by_cases heq : p = initproc <;> simp [heq, State.Scanned] at hc

/-- **No parent sleeps over a dead child.**  Whatever interleaving of forks, exits, waits,
wakeups, kills and context switches led to the state: a process other than init that is
asleep in `wait` has no zombie among its children. -/
theorem no_sleep_over_zombie {initproc p c : Fin nproc} {s : State nproc}
    (hreach : Reachable (Step initproc) (State.boot initproc) s) (hinit : p ≠ initproc)
    (hsleep : s.state p = .sleeping) (hchan : s.chan p = some (.proc p))
    (hchild : s.parent c = some p) : s.state c ≠ .zombie := by
  have hinv : Inv initproc s := reachable_invariant (Inv initproc) (inv_boot initproc)
    (fun _ _ hinv hstep => hinv.step hstep) hreach
  -- Asleep on its own slot, it is behind the search of `wait`.
  have hpc : s.pc p = .waitSlept := by
    have hcoherent := (hinv.slots p).coherent
    cases hcase : s.pc p <;> simp_all [Coherent]
  refine hinv.scanned p c hinit ?_ hchild
  rw [State.Scanned, hpc]
  exact hsleep

end Steps

section Example

/-- Process 1, a child of init, has forked process 2 and sleeps in `wait`. -/
theorem exists_waiting : ∃ s : State 3, Reachable (Step 0) (State.boot 0) s ∧
    s.state 1 = .sleeping ∧ s.chan 1 = some (.proc 1) ∧ s.parent 2 = some 1 := by
  have hreach : Reachable (Step (0 : Fin 3)) (State.boot 0) _ := .refl
  replace hreach := hreach.tail (.switchTo (p := 0) rfl rfl rfl)
  replace hreach := hreach.tail (.release (p := 0) rfl .resumed)
  replace hreach := hreach.tail (.move (p := 0) rfl .fork)
  replace hreach := hreach.tail (.acquire (p := 0) rfl (@Acquires.allocproc _ _ _ 0) rfl)
  replace hreach := hreach.tail (.release (p := 0) rfl (.allocproc (by decide)))
  replace hreach := hreach.tail (.acquire (p := 0) rfl (@Acquires.allocproc _ _ _ 1) rfl)
  replace hreach := hreach.tail (.fork (p := 0) rfl rfl rfl)
  replace hreach := hreach.tail (.release (p := 0) rfl .fork)
  replace hreach := hreach.tail (.switchTo (p := 1) rfl rfl rfl)
  replace hreach := hreach.tail (.release (p := 1) rfl .resumed)
  replace hreach := hreach.tail (.move (p := 1) rfl .fork)
  replace hreach := hreach.tail (.acquire (p := 1) rfl (@Acquires.allocproc _ _ _ 0) rfl)
  replace hreach := hreach.tail (.release (p := 1) rfl (.allocproc (by decide)))
  replace hreach := hreach.tail (.acquire (p := 1) rfl (@Acquires.allocproc _ _ _ 1) rfl)
  replace hreach := hreach.tail (.release (p := 1) rfl (.allocproc (by decide)))
  replace hreach := hreach.tail (.acquire (p := 1) rfl (@Acquires.allocproc _ _ _ 2) rfl)
  replace hreach := hreach.tail (.fork (p := 1) rfl rfl rfl)
  replace hreach := hreach.tail (.release (p := 1) rfl .fork)
  replace hreach := hreach.tail (.acquire (p := 1) rfl .wait rfl)
  replace hreach := hreach.tail (.move (p := 1) rfl
    (.wait (by decide) : Moves _ _ (.waitScan (0 : Fin 3) false) _))
  replace hreach := hreach.tail (.move (p := 1) rfl
    (.wait (by decide) : Moves _ _ (.waitScan (1 : Fin 3) false) _))
  replace hreach := hreach.tail (.move (p := 1) rfl (@Moves.waitChild _ _ _ 2 _ rfl))
  replace hreach := hreach.tail (.acquire (p := 1) rfl .waitChild rfl)
  replace hreach := hreach.tail (.release (p := 1) rfl (.waitChild (by decide)))
  replace hreach := hreach.tail (.waitSleep (p := 1) rfl rfl rfl (by decide))
  exact ⟨_, hreach, rfl, rfl, rfl⟩

theorem no_sleep_over_zombie_waiting : ∃ s : State 3, Reachable (Step 0) (State.boot 0) s ∧
    s.state 1 = .sleeping ∧ s.state 2 ≠ .zombie := by
  obtain ⟨s, hreach, hsleep, hchan, hchild⟩ := exists_waiting
  exact ⟨s, hreach, hsleep, no_sleep_over_zombie hreach (by decide) hsleep hchan hchild⟩

end Example

end OperateSystem.Waiting

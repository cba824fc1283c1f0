import Mathlib.Data.Fintype.EquivFin
import OperateSystem.Core.WaitGraph
import OperateSystem.Sched.ProcessTree

/-!
# The parent-then-child rule

A process that has one process lock and takes another follows the tree: `wait` and `reparent`
take the lock of a child, and `exit` takes that of the parent before its own.  So processes that
wait for locks of one another in a circle would be their own descendants.

But `exit` reads `p->parent` and lets go of its own lock before it takes the lock of the parent.
When the parent has exited in between, the slot whose lock is taken belongs to nobody, or to a
process anywhere in the tree, and the rule is broken.  Where that does not happen, some process
can always go on.
-/

namespace OperateSystem.Waiting

open OperateSystem.Vm
open OperateSystem.Invariant

variable {nproc : ℕ}

/-! ## Locks are held by those who have taken them -/

/-- Every lock that a process has is one that its code is going to release, and init has no
parent. -/
structure Locks (initproc : Fin nproc) (s : State nproc) : Prop where
  accurate : ∀ p q, s.lock q = some (.proc p) → s.Holds initproc p q
  root : s.parent initproc = none

section Steps

variable {initproc p q : Fin nproc} {s s' : State nproc} {pc pc' : Pc nproc}

theorem Acquires.gains (h : Acquires initproc p pc q pc') :
    pc'.holds initproc p q ∧ ∀ j, pc.holds initproc p j → pc'.holds initproc p j := by
  cases h with
  | yield hnext =>
      exact ⟨rfl, fun j hj => absurd hj (Pc.interruptible.not_holds hnext j)⟩
  | _ => simp_all [Pc.holds]

theorem Releases.keeps (h : Releases s p pc q pc') (j : Fin nproc) (hne : j ≠ q)
    (hj : pc.holds initproc p j) : pc'.holds initproc p j := by
  cases h <;> simp_all [Pc.holds]

theorem Moves.holds (h : Moves s p pc pc') (j : Fin nproc) (hj : pc.holds initproc p j) :
    pc'.holds initproc p j := by
  cases h <;> simp_all [Pc.holds]

/-- A step of process `p`, which may also change the slots of processes that are off. -/
theorem Locks.own (h : Locks initproc s) (p : Fin nproc)
    (hothers : ∀ r, r ≠ p → s.run r ≠ .off → s'.pc r = s.pc r ∧ s'.run r = s.run r)
    (hlock : ∀ r j, r ≠ p → s'.lock j = some (.proc r) → s.lock j = some (.proc r))
    (hown : ∀ j, s'.lock j = some (.proc p) → s'.Holds initproc p j)
    (hroot : s'.parent initproc = none) : Locks initproc s' := by
  refine ⟨fun r j hj => ?_, hroot⟩
  by_cases heq : r = p
  · subst heq
    exact hown j hj
  · have hold := h.accurate r j (hlock r j heq hj)
    obtain ⟨hpc, hrun⟩ := hothers r heq hold.1
    rw [State.Holds, hpc, hrun]
    exact hold

/-- The same when the lock of one slot is released. -/
theorem Locks.ownRelease (h : Locks initproc s) (p q : Fin nproc)
    (hothers : ∀ r, r ≠ p → s.run r ≠ .off → s'.pc r = s.pc r ∧ s'.run r = s.run r)
    (hlock : s'.lock = Function.update s.lock q none)
    (hown : ∀ j, j ≠ q → s.Holds initproc p j → s'.Holds initproc p j)
    (hroot : s'.parent initproc = none) : Locks initproc s' := by
  refine h.own p hothers (fun r j _ hj => ?_) (fun j hj => ?_) hroot
  · by_cases heq : j = q
    · simp [hlock, heq] at hj
    · simpa [hlock, heq] using hj
  · by_cases heq : j = q
    · simp [hlock, heq] at hj
    · exact hown j heq (h.accurate p j (by simpa [hlock, heq] using hj))

/-- The same when the locks stay as they are. -/
theorem Locks.ownKeep (h : Locks initproc s) (p : Fin nproc)
    (hothers : ∀ r, r ≠ p → s.run r ≠ .off → s'.pc r = s.pc r ∧ s'.run r = s.run r)
    (hlock : s'.lock = s.lock) (hown : ∀ j, s.Holds initproc p j → s'.Holds initproc p j)
    (hroot : s'.parent initproc = none) : Locks initproc s' := by
  refine h.own p hothers (fun r j _ hj => by rwa [hlock] at hj) (fun j hj => ?_) hroot
  exact hown j (h.accurate p j (by rwa [hlock] at hj))

/-- A step of somebody else. -/
theorem Locks.other (h : Locks initproc s) (hpc : s'.pc = s.pc) (hrun : s'.run = s.run)
    (hparent : s'.parent = s.parent)
    (hlock : ∀ j r, s'.lock j = some (.proc r) → s.lock j = some (.proc r)) :
    Locks initproc s' := by
  refine ⟨fun r j hj => ?_, by rw [hparent]; exact h.root⟩
  rw [State.Holds, hpc, hrun]
  exact h.accurate r j (hlock j r hj)

@[simp]
theorem State.wakeup1_lock (s : State nproc) (q : Fin nproc) : (s.wakeup1 q).lock = s.lock := by
  rw [State.wakeup1]
  split <;> rfl

theorem Inv.off_of_unused (h : Inv initproc s) (hunused : s.state q = .unused) :
    s.run q = .off := by
  have hcoherent := (h.slots q).coherent
  cases hpc : s.pc q <;> simp_all [Coherent]

/-- Somebody else takes a lock or releases it. -/
theorem Locks.otherLock (h : Locks initproc s) {holder : Option (Agent nproc)}
    (hother : ∀ r, holder ≠ some (.proc r)) : Locks initproc (s.setLock q holder) := by
  refine h.other rfl rfl rfl fun j r hj => ?_
  by_cases heq : j = q
  · simp [heq, hother r] at hj
  · simpa [heq] using hj

/-- The scheduler gives the lock of a process to the process. -/
theorem Locks.switchTo (h : Locks initproc s) (hinv : Inv initproc s) (hrun : s.run p = .off)
    (hstate : s.state p = .runnable) : Locks initproc
      (((s.setState p .running).setLock p (some (.proc p))).setRun p .on) := by
  have hparked : (s.pc p).holds initproc p p := by
    have hcoherent := (hinv.slots p).coherent
    cases hpc : s.pc p <;> simp_all [Coherent, Pc.holds]
  refine h.own p (fun r hr _ => by simp [hr]) (fun r j hr hj => ?_) (fun j hj => ?_) h.root
  · by_cases heq : j = p
    · simp [heq, Ne.symm hr] at hj
    · simpa [heq] using hj
  · by_cases heq : j = p
    · subst heq
      exact ⟨by simp, by simpa using hparked⟩
    · exact absurd hrun (h.accurate p j (by simpa [heq] using hj)).1

theorem Locks.acquire (h : Locks initproc s) (hrun : s.run p = .on)
    (hcode : Acquires initproc p (s.pc p) q pc) :
    Locks initproc ((s.setLock q (some (.proc p))).goto p pc) := by
  obtain ⟨hgain, hkeep⟩ := hcode.gains
  refine h.own p (fun r hr _ => by simp [hr]) (fun r j hr hj => ?_) (fun j hj => ?_) h.root
  · by_cases heq : j = q
    · simp [heq, Ne.symm hr] at hj
    · simpa [heq] using hj
  · refine ⟨by simp [hrun], ?_⟩
    simp only [State.goto_pc, Function.update_self]
    by_cases heq : j = q
    · exact heq ▸ hgain
    · exact hkeep j (h.accurate p j (by simpa [heq] using hj)).2

/-- A child is given to init, and its lock is released. -/
theorem Locks.reparent (h : Locks initproc s) (hfamily : Family initproc s) {o pp : Fin nproc}
    (hrun : s.run p = .on) (hpc : s.pc p = .exitChild o pp) : Locks initproc
      (((s.setParent pp (some initproc)).setLock pp none).goto p (.exitReparent o (pp + 1))) := by
  have hchild : s.parent pp = some p := hfamily.child p pp (by rw [hpc]; rfl)
  have hne : initproc ≠ pp := by
    rintro rfl
    rw [h.root] at hchild
    cases hchild
  refine h.ownRelease p pp (fun r hr _ => by simp [hr]) rfl (fun j hj hholds => ?_)
    (by simpa [hne] using h.root)
  have hold : j = o ∨ j = p ∨ j = pp := by simpa [hpc, Pc.holds] using hholds.2
  have hrest : j = o ∨ j = p := hold.imp_right fun hor => hor.resolve_right hj
  exact ⟨by simp [hrun], by simpa [Pc.holds] using hrest⟩

/-- A dead child is freed, and its lock is released. -/
theorem Locks.freeproc (h : Locks initproc s) (hinv : Inv initproc s) {np : Fin nproc}
    (hrun : s.run p = .on) (hpc : s.pc p = .waitChild np) (hstate : s.state np = .zombie) :
    Locks initproc (((s.freeproc np).setLock np none).goto p .waitRelease) := by
  have hslot := hinv.slots p
  have hok := hslot.ok
  rw [hpc] at hok
  have hdead : s.run np = .off := hinv.run_off hstate (Ne.symm hok)
    (hslot.locks np ⟨by simp [hrun], by rw [hpc]; exact Or.inr rfl⟩)
  refine h.ownRelease p np (fun r hr halive => ?_) rfl (fun j hne hj => ?_) ?_
  · have hrnp : r ≠ np := by
      rintro rfl
      exact halive hdead
    simp [hr, hrnp]
  · have hold := hj.2
    simp only [hpc, Pc.holds] at hold
    exact ⟨by simp [hrun], by simpa [Pc.holds] using hold.resolve_right hne⟩
  · by_cases heq : initproc = np
    · simp [heq]
    · simpa [heq] using h.root

/-- `fork` makes a child, whose lock it has. -/
theorem Locks.create (h : Locks initproc s) (hinv : Inv initproc s) (hfamily : Family initproc s)
    {np : Fin nproc} (hrun : s.run p = .on) (hpc : s.pc p = .forkTest np)
    (hstate : s.state np = .unused) :
    Locks initproc ((s.create np p).goto p (.forkRelease np)) := by
  have hoff := hinv.off_of_unused hstate
  have hne : initproc ≠ np := by
    rintro rfl
    exact (hinv.alive_of_keeps (hfamily.init_keeps 0)).1 hstate
  refine h.ownKeep p (fun r hr halive => ?_) rfl (fun j hj => ?_) (by simpa [hne] using h.root)
  · have hrnp : r ≠ np := by
      rintro rfl
      exact halive hoff
    simp [hr, hrnp]
  · exact ⟨by simp [hrun], by simpa [hpc, Pc.holds] using hj.2⟩

theorem Locks.step (h : Locks initproc s) (hinv : Inv initproc s) (hfamily : Family initproc s)
    (hstep : Step initproc s s') : Locks initproc s' := by
  cases hstep with
  | otherAcquire hfree => exact h.otherLock (by simp)
  | otherWake hlock hstate => exact h.other rfl rfl rfl fun _ _ hj => hj
  | otherKill hlock => exact h.other rfl rfl rfl fun _ _ hj => hj
  | otherRelease hlock => exact h.otherLock (by simp)
  | switchTo hrun hfree hstate => exact h.switchTo hinv hrun hstate
  | @switchFrom p hrun =>
      refine h.ownRelease p p (fun r hr _ => by simp [hr]) rfl (fun j hne hj => ?_) h.root
      -- Only its own lock is held by a process that leaves its CPU.
      have hcoherent := (hinv.slots p).coherent
      have hholds := hj.2
      cases hpc : s.pc p <;> simp_all [Coherent, Pc.holds]
  | acquire hrun hcode hfree => exact h.acquire hrun hcode
  | @release p q pc hrun hcode =>
      refine h.ownRelease p q (fun r hr _ => by simp [hr]) rfl (fun j hne hj => ?_) h.root
      exact ⟨hj.1, by simpa using hcode.keeps j hne hj.2⟩
  | @move p pc hrun hcode =>
      refine h.ownKeep p (fun r hr _ => by simp [hr]) rfl (fun j hj => ?_) h.root
      exact ⟨hj.1, by simpa using hcode.holds j hj.2⟩
  | @yield p next hrun hpc =>
      refine h.ownKeep p (fun r hr _ => by simp [hr]) rfl (fun j hj => ?_) h.root
      exact ⟨by simp, by simpa [hpc, Pc.holds] using hj.2⟩
  | @sleep p hrun hpc =>
      refine h.ownKeep p (fun r hr _ => by simp [hr]) rfl (fun j hj => ?_) h.root
      exact ⟨by simp, by simpa [hpc, Pc.holds] using hj.2⟩
  | @slept p hrun hpc =>
      refine h.ownRelease p p (fun r hr _ => by simp [hr]) rfl (fun j hne hj => ?_) h.root
      exact absurd (by simpa [hpc, Pc.holds] using hj.2) hne
  | @exitInit p hrun hpc =>
      refine h.ownRelease p initproc (fun r hr _ => by simp [hr]) ?_ (fun j hne hj => ?_)
        (by simpa using h.root)
      · change Function.update (s.wakeup1 initproc).lock initproc none = _
        rw [State.wakeup1_lock]
      · exact absurd (by simpa [hpc, Pc.holds] using hj.2) hne
  | reparent hrun hpc => exact h.reparent hfamily hrun hpc
  | @zombie p o hrun hpc =>
      refine h.ownKeep p (fun r hr _ => by simp [hr]) (State.wakeup1_lock s o) (fun j hj => ?_)
        (by simpa using h.root)
      exact ⟨by simp [hrun], by simpa [hpc, Pc.holds] using hj.2⟩
  | @exited p hrun hpc =>
      refine h.ownKeep p (fun r hr _ => by simp [hr]) rfl (fun j hj => ?_) h.root
      exact ⟨by simp, hj.2⟩
  | waitFree hrun hpc hstate => exact h.freeproc hinv hrun hpc hstate
  | @waitSleep p havekids hrun hpc hkids hkilled =>
      refine h.ownKeep p (fun r hr _ => by simp [hr]) rfl (fun j hj => ?_) h.root
      exact ⟨by simp, by simpa [hpc, Pc.holds] using hj.2⟩
  | @waitSlept p hrun hpc =>
      refine h.ownKeep p (fun r hr _ => by simp [hr]) rfl (fun j hj => ?_) h.root
      exact ⟨hj.1, by simpa [hpc, Pc.holds] using hj.2⟩
  | fork hrun hpc hstate => exact h.create hinv hfamily hrun hpc hstate

theorem locks_boot (initproc : Fin nproc) : Locks initproc (State.boot initproc) := by
  refine ⟨fun p q hq => ?_, rfl⟩
  simp at hq

theorem reachable_locks (hreach : Reachable (Step initproc) (State.boot initproc) s) :
    (Inv initproc s ∧ Family initproc s) ∧ Locks initproc s :=
  reachable_invariant (fun s => (Inv initproc s ∧ Family initproc s) ∧ Locks initproc s)
    ⟨⟨inv_boot initproc, family_boot initproc⟩, locks_boot initproc⟩
    (fun _ _ h hstep => ⟨⟨h.1.1.step hstep, h.1.2.step h.1.1 hstep⟩,
      h.2.step h.1.1 h.1.2 hstep⟩) hreach

end Steps

/-! ## The tree has no circles -/

section Tree

variable {initproc : Fin nproc} {s : State nproc}

/-- `b` is a child of `a`. -/
def State.Child (s : State nproc) (a b : Fin nproc) : Prop := s.parent b = some a

/-- Nobody who is under init is an ancestor of their own. -/
theorem not_own_ancestor (hroot : s.parent initproc = none) {c : Fin nproc}
    (hunder : Relation.ReflTransGen s.Raises c initproc) : ¬ Relation.TransGen s.Child c c := by
  induction hunder using Relation.ReflTransGen.head_induction_on with
  | refl =>
      intro hcycle
      obtain ⟨a, -, ha⟩ := Relation.TransGen.tail'_iff.mp hcycle
      rw [State.Child, hroot] at ha
      cases ha
  | @head c q hup _ ih =>
      intro hcycle
      obtain ⟨a, hpath, ha⟩ := Relation.TransGen.tail'_iff.mp hcycle
      -- The circle comes back to `c` through its parent.
      obtain rfl : a = q := Option.some.inj (ha.symm.trans hup.1)
      exact ih (Relation.TransGen.head'_iff.mpr ⟨c, ha, hpath⟩)

theorem Family.acyclic (h : Family initproc s) (hroot : s.parent initproc = none) :
    WaitGraph.Acyclic s.Child := by
  intro c hcycle
  obtain ⟨a, -, ha⟩ := Relation.TransGen.tail'_iff.mp hcycle
  have hused : s.state c ≠ .unused := by
    intro hunused
    rw [State.Child, h.unused c hunused] at ha
    cases ha
  exact not_own_ancestor hroot (h.under c hused) hcycle

end Tree

/-! ## Waiting for locks -/

/-- Process `a` is about to take a lock that process `b` has. -/
def State.Waits (initproc : Fin nproc) (s : State nproc) (a b : Fin nproc) : Prop :=
  s.run a = .on ∧ ∃ q pc, Acquires initproc a (s.pc a) q pc ∧ s.lock q = some (.proc b)

/-- The slot that `exit` has locked as the one of the parent, before the process is a zombie. -/
def Pc.took : Pc nproc → Option (Fin nproc)
  | .exitParentLocked originalParent | .exitReparent originalParent _
  | .exitFound originalParent _ | .exitChild originalParent _ => some originalParent
  | _ => none

section Waits

variable {initproc p q j : Fin nproc} {s : State nproc} {pc pc' : Pc nproc}

/-- A process that has a lock and takes another takes its own as an exiting process that has
locked the slot of its parent, or that of a child. -/
theorem Acquires.wants (h : Acquires initproc p pc q pc') (hholds : pc.holds initproc p j)
    (hchild : ∀ c, pc.child = some c → s.parent c = some p) :
    (∃ o, pc = .exitParentLocked o) ∧ q = p ∨ s.parent q = some p := by
  cases h with
  | yield hnext => exact absurd hholds (Pc.interruptible.not_holds hnext j)
  | @exitBoth o => exact Or.inl ⟨⟨o, rfl⟩, rfl⟩
  | reparent | waitChild => exact Or.inr (hchild q rfl)
  | _ => exact hholds.elim

/-- The lock that it has is the one it took as that of its parent, or its own. -/
theorem Acquires.has (h : Acquires initproc p pc q pc') (hholds : pc.holds initproc p j) :
    pc.took = some j ∨ (¬ ∃ o, pc = .exitParentLocked o) ∧ j = p := by
  cases h with
  | yield hnext => exact absurd hholds (Pc.interruptible.not_holds hnext j)
  | @exitBoth o =>
      obtain rfl : j = o := hholds
      exact Or.inl rfl
  | @reparent o pp =>
      rcases hholds with rfl | rfl
      · exact Or.inl rfl
      · exact Or.inr ⟨by simp, rfl⟩
  | waitChild => exact Or.inr ⟨by simp, hholds⟩
  | _ => exact hholds.elim

/-- Along the wait of a process that is waited for, for one that waits, the tree goes down. -/
theorem Locks.descends (h : Locks initproc s) (hfamily : Family initproc s) {z a b c : Fin nproc}
    (hza : s.Waits initproc z a) (hab : s.Waits initproc a b) (hbc : s.Waits initproc b c)
    (hfresh : ∀ o, (s.pc b).took = some o → s.parent b = some o) :
    Relation.TransGen s.Child a b := by
  obtain ⟨-, qz, -, -, hqz⟩ := hza
  obtain ⟨-, q, pca, ha, hq⟩ := hab
  obtain ⟨-, qb, pcb, hb, -⟩ := hbc
  have hheld : (s.pc b).holds initproc b q := (h.accurate b q hq).2
  rcases ha.wants (h.accurate a qz hqz).2 (hfamily.child a), hb.has hheld with
    ⟨⟨hexit, rfl⟩ | hchild, htook | ⟨hnot, rfl⟩⟩
  · exact .single (hfresh q htook)
  · exact absurd hexit hnot
  · exact .tail (.single hchild) (hfresh q htook)
  · exact .single hchild

/-- On a circle of processes that wait for locks of one another somebody has locked the slot of
a parent that it does not have. -/
theorem Locks.circle_stale (h : Locks initproc s) (hfamily : Family initproc s) {a : Fin nproc}
    (hcircle : Relation.TransGen (s.Waits initproc) a a) :
    ∃ b o, Relation.TransGen (s.Waits initproc) a b ∧
      Relation.ReflTransGen (s.Waits initproc) b a ∧ (s.pc b).took = some o ∧
      s.parent b ≠ some o := by
  by_contra hnone
  refine hfamily.acyclic h.root a (WaitGraph.transGen_of_cycle hcircle ?_)
  intro z c b d hzc hcb hbd hab hba
  refine h.descends hfamily hzc hcb hbd fun o htook => ?_
  by_contra hparent
  exact hnone ⟨b, o, hab, hba, htook, hparent⟩

/-- **The parent-then-child rule prevents deadlocks, up to one race.**  If in some interleaving
processes wait for process locks of one another in a circle, there is an exiting process on it
that has locked the slot of a parent it no longer has: it has been given to init since it read
the field. -/
theorem circle_has_orphan (hreach : Reachable (Step initproc) (State.boot initproc) s)
    {a : Fin nproc} (hcircle : Relation.TransGen (s.Waits initproc) a a) :
    ∃ b o, Relation.TransGen (s.Waits initproc) a b ∧
      Relation.ReflTransGen (s.Waits initproc) b a ∧ (s.pc b).took = some o ∧
      s.parent b = some initproc ∧ o ≠ initproc := by
  obtain ⟨⟨hinv, hfamily⟩, hlocks⟩ := reachable_locks hreach
  obtain ⟨b, o, hab, hba, htook, hstale⟩ :=
    hlocks.circle_stale hfamily hcircle
  have horiginal : (s.pc b).original = some o := by
    cases hpc : s.pc b <;> simp_all [Pc.took, Pc.original]
  have hinit : s.parent b = some initproc :=
    ((hinv.slots b).original o horiginal).resolve_left hstale
  refine ⟨b, o, hab, hba, htook, hinit, ?_⟩
  rintro rfl
  exact hstale hinit

end Waits

/-! ## Whoever has a lock goes on -/

/-- The loops over the slots end behind the last one. -/
def Pc.within : Pc nproc → Prop
  | .resumed next | .yieldLocked next => next.within
  | .exitReparent _ slot | .waitScan slot _ => slot ≤ nproc
  | _ => True

/-- Process `p` can take a step. -/
def State.Proceeds (initproc : Fin nproc) (s : State nproc) (p : Fin nproc) : Prop :=
  ∃ s', Step initproc s s' ∧ (s'.pc p ≠ s.pc p ∨ s'.run p ≠ s.run p)

/-- Process `p` is about to take a lock. -/
def State.Acquiring (initproc : Fin nproc) (s : State nproc) (p : Fin nproc) : Prop :=
  ∃ q pc, Acquires initproc p (s.pc p) q pc

section Progress

variable {initproc p q : Fin nproc} {s s' : State nproc} {pc pc' : Pc nproc}

theorem within_update {code : Fin nproc → Pc nproc} (h : ∀ r, (code r).within) (p : Fin nproc)
    (hpc : pc.within) (r : Fin nproc) : (Function.update code p pc r).within := by
  by_cases heq : r = p
  · subst heq
    rwa [Function.update_self]
  · rw [Function.update_of_ne heq]
    exact h r

theorem Pc.interruptible.within (h : pc.interruptible) : pc.within := by
  cases pc <;> simp_all [Pc.interruptible, Pc.within]

theorem Acquires.within (h : Acquires initproc p pc q pc') (hpc : pc.within) : pc'.within := by
  cases h with
  | yield hnext => exact hnext.within
  | _ => simp_all [Pc.within]

theorem Releases.within (h : Releases s p pc q pc') (hpc : pc.within) : pc'.within := by
  cases h with
  | waitChild hstate => exact Nat.succ_le_of_lt (Fin.isLt _)
  | _ => simp_all [Pc.within]

theorem Moves.within (h : Moves s p pc pc') (hpc : pc.within) : pc'.within := by
  cases h with
  | @reparent o pp hparent => exact pp.isLt
  | wait hparent => exact Nat.succ_le_of_lt (Fin.isLt _)
  | _ => simp_all [Pc.within]

theorem within_step (h : ∀ r, (s.pc r).within) (hstep : Step initproc s s') :
    ∀ r, (s'.pc r).within := by
  cases hstep with
  | @acquire p q pc hrun hcode => exact within_update h p (hcode.within (h p))
  | @release p q pc hrun hcode => exact within_update h p (hcode.within (h p))
  | @move p pc hrun hcode => exact within_update h p (hcode.within (h p))
  | @yield p next hrun hpc =>
      refine within_update h p ?_
      have hp := h p
      rwa [hpc] at hp
  | @sleep p hrun hpc => exact within_update h p trivial
  | @slept p hrun hpc => exact within_update h p trivial
  | @exitInit p hrun hpc =>
      refine within_update (fun r => ?_) p trivial
      rw [State.setLock_pc, State.wakeup1_pc]
      exact h r
  | @reparent p o pp hrun hpc => exact within_update h p pp.isLt
  | @zombie p o hrun hpc =>
      refine within_update (fun r => ?_) p trivial
      rw [State.setState_pc, State.wakeup1_pc]
      exact h r
  | @waitFree p np hrun hpc hstate =>
      have hfreed := within_update h np (show Pc.within .absent from trivial)
      exact within_update hfreed p trivial
  | @waitSleep p havekids hrun hpc hkids hkilled => exact within_update h p trivial
  | @waitSlept p hrun hpc => exact within_update h p (Nat.zero_le _)
  | @fork p np hrun hpc hstate =>
      have hcreated := within_update h np (show Pc.within (.resumed .user) from trivial)
      exact within_update hcreated p trivial
  | _ => exact h

theorem Pc.ne_resumed (next : Pc nproc) : next ≠ .resumed next := by
  intro h
  cases h

theorem Acquires.moves (h : Acquires initproc p pc q pc') : pc' ≠ pc := by
  cases h with
  | @yield next hnext =>
      intro heq
      cases heq
  | _ => simp

/-- A running process that has a lock has a step to take, unless it takes another lock. -/
theorem running_proceeds (hinv : Inv initproc s) (hfamily : Family initproc s)
    (hwithin : (s.pc p).within) (hrun : s.run p = .on) (hholds : (s.pc p).holds initproc p q) :
    s.Proceeds initproc p ∨ s.Acquiring initproc p := by
  have hrelease : ∀ {pc j pc'}, s.pc p = pc → Releases s p pc j pc' → pc' ≠ pc →
      s.Proceeds initproc p ∨ s.Acquiring initproc p := by
    rintro _ j pc' rfl hcode hne
    exact Or.inl ⟨_, .release hrun hcode, Or.inl (by simpa using hne)⟩
  have hmove : ∀ {pc pc'}, s.pc p = pc → Moves s p pc pc' → pc' ≠ pc →
      s.Proceeds initproc p ∨ s.Acquiring initproc p := by
    rintro _ pc' rfl hcode hne
    exact Or.inl ⟨_, .move hrun hcode, Or.inl (by simpa using hne)⟩
  have hacquire : ∀ {pc j pc'}, s.pc p = pc → Acquires initproc p pc j pc' →
      s.Proceeds initproc p ∨ s.Acquiring initproc p := by
    rintro _ j pc' rfl hcode
    exact Or.inr ⟨j, pc', hcode⟩
  cases hpc : s.pc p with
  | absent | user | exitReady | exitParent o | forkScan np =>
      rw [hpc] at hholds
      exact hholds.elim
  | resumed next => exact hrelease hpc .resumed (Pc.ne_resumed next)
  | yieldLocked next => exact Or.inl ⟨_, .yield hrun hpc, Or.inr (by simp [hrun])⟩
  | sleepLocked => exact Or.inl ⟨_, .sleep hrun hpc, Or.inr (by simp [hrun])⟩
  | slept => exact Or.inl ⟨_, .slept hrun hpc, Or.inl (by simp [hpc])⟩
  | exitInit => exact Or.inl ⟨_, .exitInit hrun hpc, Or.inl (by simp [hpc])⟩
  | exitSelf =>
      obtain ⟨o, ho⟩ := hfamily.parent_of_exiting hinv hpc
      exact hrelease hpc (.exitSelf ho) (by simp)
  | exitParentLocked o => exact hacquire hpc .exitBoth
  | exitReparent o slot =>
      rw [hpc] at hwithin
      rcases Nat.lt_or_eq_of_le hwithin with hlt | hend
      · by_cases hparent : s.parent ⟨slot, hlt⟩ = some p
        · exact hmove hpc (Moves.reparentChild hparent) (by simp)
        · exact hmove hpc (Moves.reparent hparent) (by simp)
      · exact Or.inl ⟨_, .zombie hrun (hend ▸ hpc), Or.inl (by simp [hpc])⟩
  | exitFound o pp => exact hacquire hpc .reparent
  | exitChild o pp => exact Or.inl ⟨_, .reparent hrun hpc, Or.inl (by simp [hpc])⟩
  | exitZombie o => exact hrelease hpc .exitZombie (by simp)
  | exited => exact Or.inl ⟨_, .exited hrun hpc, Or.inr (by simp [hrun])⟩
  | waitScan slot havekids =>
      rw [hpc] at hwithin
      rcases Nat.lt_or_eq_of_le hwithin with hlt | hend
      · by_cases hparent : s.parent ⟨slot, hlt⟩ = some p
        · exact hmove hpc (Moves.waitChild hparent) (by simp)
        · exact hmove hpc (Moves.wait hparent) (by simp)
      · rw [hend] at hpc
        by_cases hnone : ¬ havekids ∨ s.killed p
        · exact hrelease hpc (.waitNone hnone) (by simp)
        · obtain ⟨hkids, hkilled⟩ := not_or.mp hnone
          exact Or.inl ⟨_, .waitSleep hrun hpc (not_not.mp hkids) hkilled,
            Or.inr (by simp [hrun])⟩
  | waitFound np => exact hacquire hpc .waitChild
  | waitChild np =>
      by_cases hzombie : s.state np = .zombie
      · exact Or.inl ⟨_, .waitFree hrun hpc hzombie, Or.inl (by simp [hpc])⟩
      · exact hrelease hpc (.waitChild hzombie) (by simp)
  | waitRelease => exact hrelease hpc .waitRelease (by simp)
  | waitSlept => exact Or.inl ⟨_, .waitSlept hrun hpc, Or.inl (by simp [hpc])⟩
  | forkTest np =>
      by_cases hunused : s.state np = .unused
      · exact Or.inl ⟨_, .fork hrun hpc hunused, Or.inl (by simp [hpc])⟩
      · exact hrelease hpc (.allocproc hunused) (by simp)
  | forkRelease np => exact hrelease hpc .fork (by simp)

theorem reachable_within (hreach : Reachable (Step initproc) (State.boot initproc) s) :
    ∀ r, (s.pc r).within := by
  refine reachable_invariant (fun s : State nproc => ∀ r, (s.pc r).within) (fun r => ?_)
    (fun _ _ h hstep => within_step h hstep) hreach
  simp only [State.boot_pc]
  split <;> trivial

/-- **No deadlock but for the race.**  In every interleaving, as long as each exiting process that
has locked the slot of its parent still has that parent, whoever has a process lock is, or waits
through others for, a process that can take a step or that wants a lock of the scheduler, `wakeup`
or `kill`, which only have to release it. -/
theorem lock_holders_go_on (hreach : Reachable (Step initproc) (State.boot initproc) s)
    (hkept : ∀ b o, (s.pc b).took = some o → s.parent b = some o) {b : Fin nproc}
    (hheld : s.lock q = some (.proc b)) :
    ∃ c, Relation.ReflTransGen (s.Waits initproc) b c ∧
      (s.Proceeds initproc c ∨ s.run c = .on ∧
        ∃ j pc, Acquires initproc c (s.pc c) j pc ∧ s.lock j = some .other) := by
  obtain ⟨⟨hinv, hfamily⟩, hlocks⟩ := reachable_locks hreach
  have hacyclic : WaitGraph.Acyclic (s.Waits initproc) := by
    intro a hcircle
    obtain ⟨b, o, -, -, htook, hstale⟩ :=
      hlocks.circle_stale hfamily hcircle
    exact hstale (hkept b o htook)
  obtain ⟨c, hbc, hlast⟩ := hacyclic.exists_last b
  have hholds : ∃ j, s.lock j = some (.proc c) := by
    rcases hbc.cases_tail with rfl | ⟨d, -, -, j, -, -, hj⟩
    · exact ⟨q, hheld⟩
    · exact ⟨j, hj⟩
  obtain ⟨j, hj⟩ := hholds
  obtain ⟨halive, hcode⟩ := hlocks.accurate c j hj
  refine ⟨c, hbc, ?_⟩
  cases hrun : s.run c with
  | off => exact absurd hrun halive
  | leaving => exact Or.inl ⟨_, .switchFrom hrun, Or.inr (by simp [hrun])⟩
  | on =>
      rcases running_proceeds hinv hfamily (reachable_within hreach c) hrun hcode with
        hstep | ⟨j', pc, hwants⟩
      · exact Or.inl hstep
      · cases hlock : s.lock j' with
        | none =>
            exact Or.inl ⟨_, .acquire hrun hwants hlock, Or.inl (by simpa using hwants.moves)⟩
        | some holder =>
            cases holder with
            | proc d => exact absurd ⟨hrun, j', pc, hwants, hlock⟩ (hlast d)
            | other => exact Or.inr ⟨rfl, j', pc, hwants, hlock⟩

/-- Process 1 exits and has the lock of init, its parent. -/
theorem exists_exiting : ∃ s : State 2, Reachable (Step 0) (State.boot 0) s ∧
    (∀ b o, (s.pc b).took = some o → s.parent b = some o) ∧ s.lock 0 = some (.proc 1) := by
  have hreach : Reachable (Step (0 : Fin 2)) (State.boot 0) _ := .refl
  replace hreach := hreach.tail (.switchTo (p := 0) rfl rfl rfl)
  replace hreach := hreach.tail (.release (p := 0) rfl .resumed)
  replace hreach := hreach.tail (.move (p := 0) rfl .fork)
  replace hreach := hreach.tail (.acquire (p := 0) rfl (@Acquires.allocproc _ _ _ 0) rfl)
  replace hreach := hreach.tail (.release (p := 0) rfl (.allocproc (by decide)))
  replace hreach := hreach.tail (.acquire (p := 0) rfl (@Acquires.allocproc _ _ _ 1) rfl)
  replace hreach := hreach.tail (.fork (p := 0) rfl rfl rfl)
  replace hreach := hreach.tail (.release (p := 0) rfl .fork)
  replace hreach := hreach.tail (.switchTo (p := 1) rfl rfl rfl)
  replace hreach := hreach.tail (.release (p := 1) rfl .resumed)
  replace hreach := hreach.tail (.acquire (p := 1) rfl (.exit (by decide)) rfl)
  replace hreach := hreach.tail (.exitInit (p := 1) rfl rfl)
  replace hreach := hreach.tail (.acquire (p := 1) rfl .exitSelf rfl)
  replace hreach := hreach.tail (.release (p := 1) rfl (.exitSelf rfl))
  replace hreach := hreach.tail (.acquire (p := 1) rfl .exitParent rfl)
  exact ⟨_, hreach, by decide, rfl⟩

theorem lock_holders_go_on_exiting : ∃ s : State 2, Reachable (Step 0) (State.boot 0) s ∧
    ∃ c, Relation.ReflTransGen (s.Waits 0) 1 c ∧
      (s.Proceeds 0 c ∨ s.run c = .on ∧
        ∃ j pc, Acquires 0 c (s.pc c) j pc ∧ s.lock j = some .other) := by
  obtain ⟨s, hreach, hkept, hheld⟩ := exists_exiting
  exact ⟨s, hreach, lock_holders_go_on hreach hkept hheld⟩

end Progress

section Example

/-- Process 2 reads that its parent is process 1, which exits and is freed.  Its child, process 3,
forks into the free slot and exits.  Process 2 then has the lock of slot 1 and takes its own, and
process 3 has that one and takes the lock of its child in slot 1. -/
theorem exists_circle : ∃ s : State 4, Reachable (Step 0) (State.boot 0) s ∧
    Relation.TransGen (s.Waits 0) 2 2 := by
  have hreach : Reachable (Step (0 : Fin 4)) (State.boot 0) _ := .refl
  -- Init forks process 1.
  replace hreach := hreach.tail (.switchTo (p := 0) rfl rfl rfl)
  replace hreach := hreach.tail (.release (p := 0) rfl .resumed)
  replace hreach := hreach.tail (.move (p := 0) rfl .fork)
  replace hreach := hreach.tail (.acquire (p := 0) rfl (@Acquires.allocproc _ _ _ 0) rfl)
  replace hreach := hreach.tail (.release (p := 0) rfl (.allocproc (by decide)))
  replace hreach := hreach.tail (.acquire (p := 0) rfl (@Acquires.allocproc _ _ _ 1) rfl)
  replace hreach := hreach.tail (.fork (p := 0) rfl rfl rfl)
  replace hreach := hreach.tail (.release (p := 0) rfl .fork)
  -- Process 1 forks process 2.
  replace hreach := hreach.tail (.switchTo (p := 1) rfl rfl rfl)
  replace hreach := hreach.tail (.release (p := 1) rfl .resumed)
  replace hreach := hreach.tail (.move (p := 1) rfl .fork)
  replace hreach := hreach.tail (.acquire (p := 1) rfl (@Acquires.allocproc _ _ _ 0) rfl)
  replace hreach := hreach.tail (.release (p := 1) rfl (.allocproc (by decide)))
  replace hreach := hreach.tail (.acquire (p := 1) rfl (@Acquires.allocproc _ _ _ 1) rfl)
  replace hreach := hreach.tail (.release (p := 1) rfl (.allocproc (by decide)))
  replace hreach := hreach.tail (.acquire (p := 1) rfl (@Acquires.allocproc _ _ _ 2) rfl)
  replace hreach := hreach.tail (.fork (p := 1) rfl rfl rfl)
  replace hreach := hreach.tail (.release (p := 1) rfl .fork)
  -- Process 2 forks process 3.
  replace hreach := hreach.tail (.switchTo (p := 2) rfl rfl rfl)
  replace hreach := hreach.tail (.release (p := 2) rfl .resumed)
  replace hreach := hreach.tail (.move (p := 2) rfl .fork)
  replace hreach := hreach.tail (.acquire (p := 2) rfl (@Acquires.allocproc _ _ _ 0) rfl)
  replace hreach := hreach.tail (.release (p := 2) rfl (.allocproc (by decide)))
  replace hreach := hreach.tail (.acquire (p := 2) rfl (@Acquires.allocproc _ _ _ 1) rfl)
  replace hreach := hreach.tail (.release (p := 2) rfl (.allocproc (by decide)))
  replace hreach := hreach.tail (.acquire (p := 2) rfl (@Acquires.allocproc _ _ _ 2) rfl)
  replace hreach := hreach.tail (.release (p := 2) rfl (.allocproc (by decide)))
  replace hreach := hreach.tail (.acquire (p := 2) rfl (@Acquires.allocproc _ _ _ 3) rfl)
  replace hreach := hreach.tail (.fork (p := 2) rfl rfl rfl)
  replace hreach := hreach.tail (.release (p := 2) rfl .fork)
  -- Process 2 starts to exit.
  replace hreach := hreach.tail (.acquire (p := 2) rfl (.exit (by decide)) rfl)
  replace hreach := hreach.tail (.exitInit (p := 2) rfl rfl)
  replace hreach := hreach.tail (.acquire (p := 2) rfl .exitSelf rfl)
  replace hreach := hreach.tail (.release (p := 2) rfl (.exitSelf rfl))
  -- Process 1 exits.
  replace hreach := hreach.tail (.acquire (p := 1) rfl (.exit (by decide)) rfl)
  replace hreach := hreach.tail (.exitInit (p := 1) rfl rfl)
  replace hreach := hreach.tail (.acquire (p := 1) rfl .exitSelf rfl)
  replace hreach := hreach.tail (.release (p := 1) rfl (.exitSelf rfl))
  replace hreach := hreach.tail (.acquire (p := 1) rfl .exitParent rfl)
  replace hreach := hreach.tail (.acquire (p := 1) rfl .exitBoth rfl)
  replace hreach := hreach.tail (.move (p := 1) rfl (@Moves.reparent _ _ _ _ 0 (by decide)))
  replace hreach := hreach.tail (.move (p := 1) rfl (@Moves.reparent _ _ _ _ 1 (by decide)))
  replace hreach := hreach.tail (.move (p := 1) rfl (@Moves.reparentChild _ _ _ _ 2 rfl))
  replace hreach := hreach.tail (.acquire (p := 1) rfl .reparent rfl)
  replace hreach := hreach.tail (.reparent (p := 1) rfl rfl)
  replace hreach := hreach.tail (.move (p := 1) rfl (@Moves.reparent _ _ _ _ 3 (by decide)))
  replace hreach := hreach.tail (.zombie (p := 1) rfl rfl)
  replace hreach := hreach.tail (.release (p := 1) rfl .exitZombie)
  replace hreach := hreach.tail (.exited (p := 1) rfl rfl)
  replace hreach := hreach.tail (.switchFrom (p := 1) rfl)
  -- Init waits for it.
  replace hreach := hreach.tail (.acquire (p := 0) rfl .wait rfl)
  replace hreach := hreach.tail (.move (p := 0) rfl (@Moves.wait _ _ _ 0 _ (by decide)))
  replace hreach := hreach.tail (.move (p := 0) rfl (@Moves.waitChild _ _ _ 1 _ rfl))
  replace hreach := hreach.tail (.acquire (p := 0) rfl .waitChild rfl)
  replace hreach := hreach.tail (.waitFree (p := 0) rfl rfl rfl)
  replace hreach := hreach.tail (.release (p := 0) rfl .waitRelease)
  -- Process 3 forks into slot 1.
  replace hreach := hreach.tail (.switchTo (p := 3) rfl rfl rfl)
  replace hreach := hreach.tail (.release (p := 3) rfl .resumed)
  replace hreach := hreach.tail (.move (p := 3) rfl .fork)
  replace hreach := hreach.tail (.acquire (p := 3) rfl (@Acquires.allocproc _ _ _ 0) rfl)
  replace hreach := hreach.tail (.release (p := 3) rfl (.allocproc (by decide)))
  replace hreach := hreach.tail (.acquire (p := 3) rfl (@Acquires.allocproc _ _ _ 1) rfl)
  replace hreach := hreach.tail (.fork (p := 3) rfl rfl rfl)
  replace hreach := hreach.tail (.release (p := 3) rfl .fork)
  -- Processes 2 and 3 exit.
  replace hreach := hreach.tail (.acquire (p := 2) rfl .exitParent rfl)
  replace hreach := hreach.tail (.acquire (p := 3) rfl (.exit (by decide)) rfl)
  replace hreach := hreach.tail (.exitInit (p := 3) rfl rfl)
  replace hreach := hreach.tail (.acquire (p := 3) rfl .exitSelf rfl)
  replace hreach := hreach.tail (.release (p := 3) rfl (.exitSelf rfl))
  replace hreach := hreach.tail (.acquire (p := 3) rfl .exitParent rfl)
  replace hreach := hreach.tail (.acquire (p := 3) rfl .exitBoth rfl)
  replace hreach := hreach.tail (.move (p := 3) rfl (@Moves.reparent _ _ _ _ 0 (by decide)))
  replace hreach := hreach.tail (.move (p := 3) rfl (@Moves.reparentChild _ _ _ _ 1 rfl))
  refine ⟨_, hreach, .tail (b := 3) (.single ?_) ?_⟩
  · exact ⟨rfl, 2, .exitReparent 1 0, .exitBoth, rfl⟩
  · exact ⟨rfl, 1, .exitChild 2 1, .reparent, rfl⟩

theorem circle_has_orphan_slot : ∃ s : State 4, Reachable (Step 0) (State.boot 0) s ∧
    ∃ b o, (s.pc b).took = some o ∧ s.parent b = some 0 ∧ o ≠ 0 := by
  obtain ⟨s, hreach, hcircle⟩ := exists_circle
  obtain ⟨b, o, -, -, htook, hinit, hne⟩ := circle_has_orphan hreach hcircle
  exact ⟨s, hreach, b, o, htook, hinit, hne⟩

end Example

end OperateSystem.Waiting

import OperateSystem.Sched.Wakeup

/-!
# The tree of processes

`exit` gives the children of the process to init, slot by slot, and reads their `parent` fields
without a lock, while other processes fork, exit and wait.  Still a process never has a
parent that is gone, or one that has already passed its slot by: the processes form a tree
under init at every instant, and only leaves of it are dead.
-/

namespace OperateSystem.Waiting

open OperateSystem.Vm
open OperateSystem.Invariant

variable {nproc : ℕ}

/-- A process at this program counter can still be the parent of slot `c`: it is not dead, and
`reparent` has not passed the slot by. -/
def Pc.Keeps (c : ℕ) : Pc nproc → Prop
  | .absent | .exitZombie _ | .exited => False
  | .exitReparent _ pp => pp ≤ c
  | .exitFound _ pp | .exitChild _ pp => pp ≤ c
  | _ => True

/-- The child that `reparent` or `wait` has found, with its lock or before. -/
def Pc.child : Pc nproc → Option (Fin nproc)
  | .exitFound _ pp | .exitChild _ pp => some pp
  | .waitFound np | .waitChild np => some np
  | _ => none

/-- The process is in `exit`, or there is none. -/
def Pc.Leaves : Pc nproc → Prop
  | .resumed next | .yieldLocked next => next.Leaves
  | .absent | .exitInit | .exitReady | .exitSelf | .exitParent _ | .exitParentLocked _
  | .exitReparent _ _ | .exitFound _ _ | .exitChild _ _ | .exitZombie _ | .exited => True
  | _ => False

/-- The slot `c` has the parent `q`, which can still look after it. -/
def State.Raises (s : State nproc) (c q : Fin nproc) : Prop :=
  s.parent c = some q ∧ (s.pc q).Keeps c

/-- Every process is under init, an unused slot has no parent, the child that a process has
found is its own, and init does not exit. -/
structure Family (initproc : Fin nproc) (s : State nproc) : Prop where
  under : ∀ c, s.state c ≠ .unused → Relation.ReflTransGen s.Raises c initproc
  unused : ∀ c, s.state c = .unused → s.parent c = none
  child : ∀ p c, (s.pc p).child = some c → s.parent c = some p
  init : ¬ (s.pc initproc).Leaves

section Steps

variable {initproc p : Fin nproc} {s s' : State nproc}

theorem Pc.keeps_of_not_leaves {pc : Pc nproc} (h : ¬ pc.Leaves) (c : ℕ) : pc.Keeps c := by
  cases pc <;> simp_all [Pc.Leaves, Pc.Keeps]

/-- A process that can be a parent is alive. -/
theorem Inv.alive_of_keeps (h : Inv initproc s) {q : Fin nproc} {c : ℕ} (hq : (s.pc q).Keeps c) :
    s.state q ≠ .unused ∧ s.state q ≠ .zombie := by
  have hcoherent := (h.slots q).coherent
  cases hpc : s.pc q <;> simp_all [Pc.Keeps, Coherent] <;> grind

/-- Process `p` goes on from one program counter to another: it still keeps its children, the
child that it has found is its own, and it does not leave if it is init. -/
structure Goes (initproc : Fin nproc) (s : State nproc) (p : Fin nproc) (pc pc' : Pc nproc) :
    Prop where
  keeps : ∀ c : Fin nproc, s.parent c = some p → pc.Keeps c → pc'.Keeps c
  child : ∀ c, pc'.child = some c → s.parent c = some p
  leaves : p = initproc → ¬ pc.Leaves → ¬ pc'.Leaves

theorem Acquires.goes {q : Fin nproc} {pc pc' : Pc nproc} (h : Acquires initproc p pc q pc')
    (hchild : ∀ c, pc.child = some c → s.parent c = some p) : Goes initproc s p pc pc' := by
  cases h with
  | reparent | waitChild =>
      -- The field was read in an earlier step.
      exact ⟨fun c _ hkeep => hkeep, hchild, fun _ hleaves => hleaves⟩
  | _ => constructor <;> simp_all [Pc.Keeps, Pc.child, Pc.Leaves]

theorem Releases.goes {q : Fin nproc} {pc pc' : Pc nproc} (h : Releases s p pc q pc')
    (hok : pc.ok p) : Goes initproc s p pc pc' := by
  cases h with
  | resumed =>
      refine ⟨fun c _ _ => ?_, fun c hc => ?_, fun _ hleaves => hleaves⟩
      · cases pc' <;> simp_all [Pc.ok, Pc.interruptible, Pc.Keeps]
      · cases pc' <;> simp_all [Pc.ok, Pc.interruptible, Pc.child]
  | _ => constructor <;> simp_all [Pc.Keeps, Pc.child, Pc.Leaves]

theorem Moves.goes {pc pc' : Pc nproc} (h : Moves s p pc pc') : Goes initproc s p pc pc' := by
  cases h with
  | @reparent o pp hpp =>
      refine ⟨fun c hc hkeep => ?_, by simp [Pc.child], fun _ hleaves _ => hleaves trivial⟩
      have hne : (pp : ℕ) ≠ c := by
        intro heq
        obtain rfl : pp = c := Fin.ext heq
        exact hpp hc
      simp only [Pc.Keeps] at hkeep ⊢
      omega
  | _ => constructor <;> simp_all [Pc.Keeps, Pc.child, Pc.Leaves]

/-- A step of one process that leaves the tree alone. -/
theorem Family.goto (h : Family initproc s) (pc : Pc nproc) (hgoes : Goes initproc s p (s.pc p) pc)
    (hpc : s'.pc = Function.update s.pc p pc) (hparent : s'.parent = s.parent)
    (hused : ∀ c, s'.state c = .unused ↔ s.state c = .unused) : Family initproc s' := by
  refine ⟨fun c hc => ?_, fun c hc => ?_, fun r c hr => ?_, ?_⟩
  · refine Relation.ReflTransGen.mono ?_ c initproc
      (h.under c fun hunused => hc ((hused c).mpr hunused))
    rintro a b ⟨hab, hkeep⟩
    refine ⟨by rw [hparent, hab], ?_⟩
    rw [hpc]
    by_cases hb : b = p
    · subst hb
      rw [Function.update_self]
      exact hgoes.keeps a hab hkeep
    · rw [Function.update_of_ne hb]
      exact hkeep
  · rw [hparent]
    exact h.unused c ((hused c).mp hc)
  · rw [hparent]
    rw [hpc] at hr
    by_cases hrp : r = p
    · subst hrp
      rw [Function.update_self] at hr
      exact hgoes.child c hr
    · rw [Function.update_of_ne hrp] at hr
      exact h.child r c hr
  · rw [hpc]
    by_cases hp : initproc = p
    · subst hp
      rw [Function.update_self]
      exact hgoes.leaves rfl h.init
    · rw [Function.update_of_ne hp]
      exact h.init

/-- A step that leaves the program counters alone as well. -/
theorem Family.frame (h : Family initproc s) (hpc : s'.pc = s.pc) (hparent : s'.parent = s.parent)
    (hused : ∀ c, s'.state c = .unused ↔ s.state c = .unused) : Family initproc s' :=
  h.goto (s.pc initproc) ⟨fun _ _ => id, h.child initproc, fun _ => id⟩
    (by rw [hpc, Function.update_eq_self]) hparent hused

/-- A path to `z` whose edges stay, or lead to `z` at once. -/
theorem path_moved {α : Type*} {R R' : α → α → Prop} {P : α → Prop} {a z : α}
    (hpath : Relation.ReflTransGen R a z) (ha : P a)
    (hedge : ∀ a b, P a → R a b → R' a z ∨ R' a b ∧ P b) : Relation.ReflTransGen R' a z := by
  induction hpath using Relation.ReflTransGen.head_induction_on with
  | refl => exact .refl
  | @head a b hab _ ih =>
      rcases hedge a b ha hab with hdone | ⟨hsame, hb⟩
      · exact .single hdone
      · exact .head hsame (ih hb)

theorem Family.init_keeps (h : Family initproc s) (c : ℕ) : (s.pc initproc).Keeps c :=
  Pc.keeps_of_not_leaves h.init c

/-- `reparent` gives a child to init. -/
theorem Family.reparent (h : Family initproc s) {o pp : Fin nproc}
    (hpc : s.pc p = .exitChild o pp) :
    Family initproc (((s.setParent pp (some initproc)).setLock pp none).goto p
      (.exitReparent o (pp + 1))) := by
  have hchild : s.parent pp = some p := h.child p pp (by rw [hpc]; rfl)
  have hp : initproc ≠ p := by
    rintro rfl
    exact h.init (by rw [hpc]; trivial)
  refine ⟨fun c hc => ?_, fun c hc => ?_, fun r c hr => ?_, ?_⟩
  · refine path_moved (P := fun _ => True) (h.under c hc) trivial ?_
    rintro a b - ⟨hab, hkeep⟩
    by_cases ha : a = pp
    · subst ha
      exact Or.inl ⟨by simp, by simpa [hp] using h.init_keeps a⟩
    · refine Or.inr ⟨⟨by simpa [ha] using hab, ?_⟩, trivial⟩
      by_cases hb : b = p
      · subst hb
        rw [hpc] at hkeep
        have hne : (pp : ℕ) ≠ a := fun heq => ha (Fin.ext heq.symm)
        simp only [Pc.Keeps] at hkeep
        simp only [State.goto_pc, Function.update_self, Pc.Keeps]
        omega
      · simpa [hb] using hkeep
  · have hne : c ≠ pp := by
      rintro rfl
      rw [h.unused c hc] at hchild
      cases hchild
    simpa [hne] using h.unused c hc
  · have hrp : r ≠ p := by
      rintro rfl
      simp [Pc.child] at hr
    have hold := h.child r c (by simpa [hrp] using hr)
    have hne : c ≠ pp := by
      rintro rfl
      rw [hchild] at hold
      exact hrp (Option.some.inj hold).symm
    simpa [hne] using hold
  · simpa [hp] using h.init

/-- `wait` frees a dead child, which has no children left. -/
theorem Family.freeproc (h : Family initproc s) (hinv : Inv initproc s) {np : Fin nproc}
    (hpc : s.pc p = .waitChild np) (hstate : s.state np = .zombie) :
    Family initproc (((s.freeproc np).setLock np none).goto p .waitRelease) := by
  have hchild : s.parent np = some p := h.child p np (by rw [hpc]; rfl)
  have hdead : ∀ c, ¬ (s.pc np).Keeps c := fun c hkeep => (hinv.alive_of_keeps hkeep).2 hstate
  have hinit : initproc ≠ np := by
    rintro rfl
    exact hdead 0 (h.init_keeps 0)
  have hp : np ≠ p := by
    rintro rfl
    exact hdead 0 (by rw [hpc]; trivial)
  refine ⟨fun c hc => ?_, fun c hc => ?_, fun r c hr => ?_, ?_⟩
  · have hne : c ≠ np := by
      rintro rfl
      simp at hc
    refine path_moved (P := fun a => a ≠ np) (h.under c (by simpa [hne] using hc)) hne ?_
    rintro a b ha ⟨hab, hkeep⟩
    have hb : b ≠ np := by
      rintro rfl
      exact hdead a hkeep
    refine Or.inr ⟨⟨by simpa [ha] using hab, ?_⟩, hb⟩
    by_cases hbp : b = p
    · simp [hbp, Pc.Keeps]
    · simpa [hbp, hb] using hkeep
  · by_cases hne : c = np
    · simp [hne]
    · simpa [hne] using h.unused c (by simpa [hne] using hc)
  · have hrp : r ≠ p := by
      rintro rfl
      simp [Pc.child] at hr
    have hrnp : r ≠ np := by
      rintro rfl
      simp [hrp, Pc.child] at hr
    have hold := h.child r c (by simpa [hrp, hrnp] using hr)
    have hne : c ≠ np := by
      rintro rfl
      rw [hchild] at hold
      exact hrp (Option.some.inj hold).symm
    simpa [hne] using hold
  · by_cases hip : initproc = p
    · simp [hip, Pc.Leaves]
    · simpa [hip, hinit] using h.init

/-- `fork` makes a child. -/
theorem Family.create (h : Family initproc s) (hinv : Inv initproc s) {np : Fin nproc}
    (hpc : s.pc p = .forkTest np) (hstate : s.state np = .unused) :
    Family initproc ((s.create np p).goto p (.forkRelease np)) := by
  have hfresh : ∀ c, ¬ (s.pc np).Keeps c := fun c hkeep => (hinv.alive_of_keeps hkeep).1 hstate
  have hp : np ≠ p := by
    rintro rfl
    exact hfresh 0 (by rw [hpc]; trivial)
  have hinit : initproc ≠ np := by
    rintro rfl
    exact hfresh 0 (h.init_keeps 0)
  have hnone := h.unused np hstate
  have hold : ∀ c, s.state c ≠ .unused →
      Relation.ReflTransGen ((s.create np p).goto p (.forkRelease np)).Raises c initproc := by
    intro c hc
    refine path_moved (P := fun _ => True) (h.under c hc) trivial ?_
    rintro a b - ⟨hab, hkeep⟩
    have ha : a ≠ np := by
      rintro rfl
      rw [hnone] at hab
      cases hab
    have hb : b ≠ np := by
      rintro rfl
      exact hfresh a hkeep
    refine Or.inr ⟨⟨by simpa [ha] using hab, ?_⟩, trivial⟩
    by_cases hbp : b = p
    · simp [hbp, Pc.Keeps]
    · simpa [hbp, hb] using hkeep
  refine ⟨fun c hc => ?_, fun c hc => ?_, fun r c hr => ?_, ?_⟩
  · by_cases hne : c = np
    · subst hne
      have halive := hinv.alive_of_keeps (q := p) (c := 0) (by rw [hpc]; trivial)
      refine .head ⟨?_, ?_⟩ (hold p halive.1)
      · simp
      · simp [Pc.Keeps]
    · exact hold c (by simpa [hne] using hc)
  · have hne : c ≠ np := by
      rintro rfl
      simp at hc
    simpa [hne] using h.unused c (by simpa [hne] using hc)
  · have hrp : r ≠ p := by
      rintro rfl
      simp [Pc.child] at hr
    have hrnp : r ≠ np := by
      rintro rfl
      simp [hrp, Pc.child] at hr
    have hchild := h.child r c (by simpa [hrp, hrnp] using hr)
    have hne : c ≠ np := by
      rintro rfl
      rw [hnone] at hchild
      cases hchild
    simpa [hne] using hchild
  · by_cases hip : initproc = p
    · simp [hip, Pc.Leaves]
    · simpa [hip, hinit] using h.init

/-- The state of one slot changes, and the slot stays in use. -/
theorem unused_update {q c : Fin nproc} {state : ProcState} (hold : s.state q ≠ .unused)
    (hnew : state ≠ .unused) :
    Function.update s.state q state c = .unused ↔ s.state c = .unused := by
  by_cases hc : c = q
  · subst hc
    simp [hold, hnew]
  · rw [Function.update_of_ne hc]

theorem unused_wakeup1 {q c : Fin nproc} :
    (s.wakeup1 q).state c = .unused ↔ s.state c = .unused := by
  rw [State.wakeup1]
  split
  · rename_i hsleep
    exact unused_update (by simp [hsleep.2]) (by simp)
  · exact Iff.rfl

theorem Family.step (h : Family initproc s) (hinv : Inv initproc s)
    (hstep : Step initproc s s') : Family initproc s' := by
  cases hstep with
  | otherAcquire hfree => exact h.frame rfl rfl fun _ => Iff.rfl
  | otherWake hlock hstate =>
      exact h.frame rfl rfl fun c => unused_update (by simp [hstate]) (by simp)
  | otherKill hlock => exact h.frame rfl rfl fun _ => Iff.rfl
  | otherRelease hlock => exact h.frame rfl rfl fun _ => Iff.rfl
  | switchTo hrun hfree hstate =>
      exact h.frame rfl rfl fun c => unused_update (by simp [hstate]) (by simp)
  | switchFrom hrun => exact h.frame rfl rfl fun _ => Iff.rfl
  | acquire hrun hcode hfree =>
      exact h.goto _ (hcode.goes (h.child _)) rfl rfl fun _ => Iff.rfl
  | release hrun hcode =>
      exact h.goto _ (hcode.goes (hinv.slots _).ok) rfl rfl fun _ => Iff.rfl
  | move hrun hcode => exact h.goto _ hcode.goes rfl rfl fun _ => Iff.rfl
  | @yield q next hrun hpc =>
      have halive := hinv.alive_of_keeps (q := q) (c := 0) (by rw [hpc]; trivial)
      refine h.goto (.resumed next) ?_ rfl rfl fun c => unused_update halive.1 (by simp)
      constructor <;> simp [hpc, Pc.Keeps, Pc.child, Pc.Leaves]
  | @sleep q hrun hpc =>
      have halive := hinv.alive_of_keeps (q := q) (c := 0) (by rw [hpc]; trivial)
      refine h.goto .slept ?_ rfl rfl fun c => unused_update halive.1 (by simp)
      constructor <;> simp [hpc, Pc.Keeps, Pc.child, Pc.Leaves]
  | @slept q hrun hpc =>
      refine h.goto .user ?_ rfl rfl fun c => Iff.rfl
      constructor <;> simp [hpc, Pc.Keeps, Pc.child, Pc.Leaves]
  | @exitInit q hrun hpc =>
      refine h.goto (p := q) .exitReady ?_ ?_ (State.wakeup1_parent s initproc)
        fun c => unused_wakeup1
      · constructor <;> simp [hpc, Pc.Keeps, Pc.child, Pc.Leaves]
      · change Function.update (s.wakeup1 initproc).pc q .exitReady = _
        rw [State.wakeup1_pc]
  | reparent hrun hpc => exact h.reparent hpc
  | @zombie q o hrun hpc =>
      have hstate : s.state q = .running := by
        have hcoherent := (hinv.slots q).coherent
        simpa [hpc, hrun, Coherent] using hcoherent
      refine h.goto (p := q) (.exitZombie o) ?_ ?_ (State.wakeup1_parent s o) fun c => ?_
      · refine ⟨fun c _ hkeep => ?_, by simp [Pc.child], fun _ hleaves _ =>
          hleaves (by rw [hpc]; trivial)⟩
        -- The loop has been through every slot.
        rw [hpc] at hkeep
        exact absurd c.isLt (Nat.not_lt.mpr hkeep)
      · change Function.update (s.wakeup1 o).pc q (.exitZombie o) = _
        rw [State.wakeup1_pc]
      · have hwoken := State.wakeup1_running hstate o
        exact (unused_update (by simp [hwoken]) (by simp)).trans unused_wakeup1
  | exited hrun hpc => exact h.frame rfl rfl fun _ => Iff.rfl
  | waitFree hrun hpc hstate => exact h.freeproc hinv hpc hstate
  | @waitSleep q havekids hrun hpc hkids hkilled =>
      have halive := hinv.alive_of_keeps (q := q) (c := 0) (by rw [hpc]; trivial)
      refine h.goto .waitSlept ?_ rfl rfl fun c => unused_update halive.1 (by simp)
      constructor <;> simp [hpc, Pc.Keeps, Pc.child, Pc.Leaves]
  | @waitSlept q hrun hpc =>
      refine h.goto (.waitScan 0 false) ?_ rfl rfl fun c => Iff.rfl
      constructor <;> simp [hpc, Pc.Keeps, Pc.child, Pc.Leaves]
  | fork hrun hpc hstate => exact h.create hinv hpc hstate

theorem family_boot (initproc : Fin nproc) : Family initproc (State.boot initproc) := by
  refine ⟨fun c hc => ?_, fun _ _ => rfl, fun p c hc => ?_, by simp [Pc.Leaves]⟩
  · by_cases heq : c = initproc
    · exact heq ▸ .refl
    · simp [heq] at hc
  · by_cases heq : p = initproc <;> simp [heq, Pc.child] at hc

theorem reachable_family {initproc : Fin nproc} {s : State nproc}
    (hreach : Reachable (Step initproc) (State.boot initproc) s) :
    Inv initproc s ∧ Family initproc s :=
  reachable_invariant (fun s => Inv initproc s ∧ Family initproc s)
    ⟨inv_boot initproc, family_boot initproc⟩
    (fun _ _ h hstep => ⟨h.1.step hstep, h.2.step h.1 hstep⟩) hreach

/-- A process that is about to read its parent has one. -/
theorem Family.parent_of_exiting {initproc p : Fin nproc} {s : State nproc}
    (h : Family initproc s) (hinv : Inv initproc s) (hpc : s.pc p = .exitSelf) :
    ∃ q, s.parent p = some q := by
  have halive := hinv.alive_of_keeps (q := p) (c := 0) (by rw [hpc]; trivial)
  rcases (h.under p halive.1).cases_head with rfl | ⟨q, ⟨hq, -⟩, -⟩
  · exact absurd (by rw [hpc]; trivial) h.init
  · exact ⟨q, hq⟩

/-- At every instant of every interleaving the processes form a tree under init, in which the
parent of a process is alive; so `exit` finds a parent to wake, and a child that `reparent` or
`wait` has found without a lock stays one while they wait for its lock and when they have it. -/
theorem processes_form_tree {initproc : Fin nproc} {s : State nproc}
    (hreach : Reachable (Step initproc) (State.boot initproc) s) :
    (∀ c, s.state c ≠ .unused → Relation.ReflTransGen (fun c q => s.parent c = some q ∧
      s.state q ≠ .unused ∧ s.state q ≠ .zombie) c initproc) ∧
    (∀ p, s.pc p = .exitSelf → ∃ q, s.parent p = some q) ∧
    (∀ p originalParent pp, s.pc p = .exitFound originalParent pp ∨
      s.pc p = .exitChild originalParent pp → s.parent pp = some p) ∧
    ∀ p np, s.pc p = .waitFound np ∨ s.pc p = .waitChild np → s.parent np = some p := by
  obtain ⟨hinv, hfamily⟩ := reachable_family hreach
  refine ⟨fun c hc => ?_, fun p hp => ?_, fun p o pp hp => ?_, fun p np hp => ?_⟩
  · refine path_moved (P := fun _ => True) (hfamily.under c hc) trivial ?_
    rintro a b - ⟨hab, hkeep⟩
    exact Or.inr ⟨⟨hab, hinv.alive_of_keeps hkeep⟩, trivial⟩
  · exact hfamily.parent_of_exiting hinv hp
  · rcases hp with hp | hp
    · exact hfamily.child p pp (by rw [hp]; rfl)
    · exact hfamily.child p pp (by rw [hp]; rfl)
  · rcases hp with hp | hp
    · exact hfamily.child p np (by rw [hp]; rfl)
    · exact hfamily.child p np (by rw [hp]; rfl)

theorem processes_form_tree_waiting : ∃ s : State 3, s.parent 2 = some 1 ∧
    Relation.ReflTransGen (fun c q => s.parent c = some q ∧ s.state q ≠ .unused ∧
      s.state q ≠ .zombie) 2 0 := by
  obtain ⟨s, hreach, hsleep, hchan, hchild⟩ := exists_waiting
  have hfamily := (reachable_family hreach).2
  refine ⟨s, hchild, (processes_form_tree hreach).1 2 fun hunused => ?_⟩
  rw [hfamily.unused 2 hunused] at hchild
  cases hchild

end Steps

end OperateSystem.Waiting

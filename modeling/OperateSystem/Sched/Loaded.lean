import OperateSystem.Core.Invariant
import OperateSystem.Sched.Scheduler

/-!
# No CPU runs on a freed kernel page table

A CPU loads the table of a process in `scheduler` and goes back to the global table only
after the process has switched back, possibly as a zombie that another CPU is waiting to
free.  It is safe because the lock of the slot is held from before the process becomes a
zombie until after `kvminithart()`, and `freeproc` runs under that lock.
-/

namespace OperateSystem.Sched

open OperateSystem.Vm
open OperateSystem.Invariant

variable {Cpu Slot : Type*}

/-! ## Locks -/

/-- The process locks held at a program counter of process `p`. -/
def Pc.holds (initproc p : Slot) : Pc Slot → Slot → Prop
  | .resumed _, q | .yieldLocked _, q | .sleepLocked, q | .exitSelf, q | .exitZombie, q
  | .waitScan, q | .waitRelease, q => q = p
  | .wakeupLocked q' _, q => q = q'
  | .exitInit, q => q = initproc
  | .exitParentLocked originalParent, q => q = originalParent
  | .exitBoth originalParent, q => q = originalParent ∨ q = p
  | .exitChild originalParent pp, q => q = originalParent ∨ q = p ∨ q = pp
  | .waitChild np, q | .waitFreed np, q => q = p ∨ q = np
  | .forkTest np, q | .forkBuild np, q | .forkRelease np, q => q = np
  | _, _ => False

/-- The locks at a program counter are different ones, and a process that has been
interrupted held none. -/
def Pc.ok (p : Slot) : Pc Slot → Prop
  | .resumed next | .yieldLocked next | .wakeupLocked _ next => next.interruptible
  | .exitBoth originalParent => originalParent ≠ p
  | .exitChild originalParent pp => originalParent ≠ p ∧ pp ≠ p ∧ pp ≠ originalParent
  | .waitChild np | .waitFreed np => np ≠ p
  | _ => True

/-- Places at which a process can be switched to: it expects its own lock to be held. -/
def Pc.parked : Pc Slot → Prop
  | .resumed _ | .waitScan => True
  | _ => False

/-- The process whose table a CPU has loaded. -/
def CpuPc.process : CpuPc Slot → Option Slot
  | .running p | .back p => some p
  | _ => none

/-- CPU `c` holds the lock of slot `q`. -/
def State.Holds (initproc : Slot) (s : State Cpu Slot) (c : Cpu) (q : Slot) : Prop :=
  match s.cpu c with
  | .idle => False
  | .waking q' | .holding q' | .back q' | .restored q' => q = q'
  | .running p => (s.pc p).holds initproc p q

theorem Pc.interruptible.not_holds {initproc p : Slot} {pc : Pc Slot} (h : pc.interruptible)
    (q : Slot) : ¬ pc.holds initproc p q := by
  cases pc <;> simp_all [Pc.interruptible, Pc.holds]

theorem Pc.interruptible.ok {p : Slot} {pc : Pc Slot} (h : pc.interruptible) : pc.ok p := by
  cases pc <;> simp_all [Pc.interruptible, Pc.ok]

section Code

variable {initproc p q : Slot} {s : State Cpu Slot} {pc pc' : Pc Slot}

/-- What an `acquire` does to the locks of its process. -/
theorem Acquires.holds (h : Acquires initproc s p pc q pc') :
    ∀ j, pc'.holds initproc p j → pc.holds initproc p j ∨ j = q := by
  cases h <;> simp [Pc.holds]

theorem Acquires.ok (h : Acquires initproc s p pc q pc') (hnot : ¬ pc.holds initproc p q)
    (hok : pc.ok p) : pc'.ok p := by
  cases h <;> simp_all [Pc.holds, Pc.ok]
  exact fun heq => hnot heq.symm

theorem Releases.holds (h : Releases initproc s p pc q pc') (hok : pc.ok p) :
    pc.holds initproc p q ∧
      ∀ j, pc'.holds initproc p j → pc.holds initproc p j ∧ j ≠ q := by
  cases h with
  | resumed =>
      exact ⟨rfl, fun j hj => absurd hj (Pc.interruptible.not_holds hok j)⟩
  | wakeup => exact ⟨rfl, fun j hj => absurd hj (Pc.interruptible.not_holds hok j)⟩
  | _ => simp_all [Pc.holds, Pc.ok, eq_comm]

end Code

/-! ## The invariant -/

section Invariant

variable (kernelPagetable : ℕ) (initproc : Slot) (s : State Cpu Slot)

/-- What holds of one CPU. -/
structure CpuOk (c : Cpu) : Prop where
  locks : ∀ q, s.Holds initproc c q → s.lock q = some c
  loaded : s.satp c = ((s.cpu c).process.map s.kPagetable).getD kernelPagetable
  running : ∀ p, s.cpu c = .running p →
    s.state p = .running ∨ (s.state p = .zombie ∧ s.pc p = .exitZombie)
  back : ∀ p, s.cpu c = .back p → s.state p ≠ .unused ∧ s.state p ≠ .running
  building : ∀ p np, s.cpu c = .running p → s.pc p = .forkBuild np →
    s.state np = .unused ∧ s.kPagetable np ≠ 0

/-- What holds of one slot. -/
structure SlotOk (p : Slot) : Prop where
  ok : (s.pc p).ok p
  parked : s.state p = .runnable ∨ s.state p = .sleeping → (s.pc p).parked
  used : s.state p ≠ .unused → s.kPagetable p ≠ 0

structure Safe : Prop where
  cpus : ∀ c, CpuOk kernelPagetable initproc s c
  slots : ∀ p, SlotOk s p
  alone : ∀ c c' p, (s.cpu c).process = some p → (s.cpu c').process = some p → c = c'
  tables : ∀ p, s.kPagetable p ≠ 0 → s.kPagetable p ∉ s.freed
  distinct : ∀ p q, s.kPagetable p ≠ 0 → s.kPagetable p = s.kPagetable q → p = q

/-- The slots that a step of `c` may change: that of its own process, and those whose
lock it holds and whose process is not running. -/
def State.Touches (c : Cpu) (q : Slot) : Prop :=
  (s.cpu c).process = some q ∨ (s.Holds initproc c q ∧ s.state q ≠ .running)

/-- A step of `c` leaves the other CPUs alone and the slots that it does not touch. -/
structure Effect (s s' : State Cpu Slot) (c : Cpu) : Prop where
  cpu : ∀ c', c' ≠ c → s'.cpu c' = s.cpu c'
  satp : ∀ c', c' ≠ c → s'.satp c' = s.satp c'
  locks : ∀ c' q, c' ≠ c → s.Holds initproc c' q → s'.lock q = s.lock q
  slots : ∀ q, ¬ s.Touches initproc c q →
    s'.state q = s.state q ∧ s'.kPagetable q = s.kPagetable q ∧ s'.pc q = s.pc q

end Invariant

section Frame

variable {kernelPagetable : ℕ} {initproc : Slot} {s s' : State Cpu Slot} {c c' : Cpu} {p q : Slot}

theorem CpuOk.holds_of_not_running (h : CpuOk kernelPagetable initproc s c)
    (hcpu : (s.cpu c).process = some p) (hstate : s.state p ≠ .running) :
    s.Holds initproc c p := by
  cases hpc : s.cpu c with
  | running p' =>
      obtain rfl : p' = p := by simpa [hpc, CpuPc.process] using hcpu
      obtain ⟨-, hzombie⟩ := (h.running p' hpc).resolve_left hstate
      simp [State.Holds, hpc, hzombie, Pc.holds]
  | back p' =>
      obtain rfl : p' = p := by simpa [hpc, CpuPc.process] using hcpu
      simp [State.Holds, hpc]
  | _ => simp [hpc, CpuPc.process] at hcpu

theorem CpuOk.state_ne_unused (h : CpuOk kernelPagetable initproc s c)
    (hcpu : (s.cpu c).process = some p) : s.state p ≠ .unused := by
  cases hpc : s.cpu c with
  | running p' =>
      obtain rfl : p' = p := by simpa [hpc, CpuPc.process] using hcpu
      rcases h.running p' hpc with hstate | ⟨hstate, -⟩ <;> simp [hstate]
  | back p' =>
      obtain rfl : p' = p := by simpa [hpc, CpuPc.process] using hcpu
      exact (h.back p' hpc).1
  | _ => simp [hpc, CpuPc.process] at hcpu

/-- Two CPUs do not hold the same lock. -/
theorem Safe.holds_unique (h : Safe kernelPagetable initproc s) (hc : s.Holds initproc c q)
    (hc' : s.Holds initproc c' q) : c = c' :=
  Option.some.inj (((h.cpus c).locks q hc).symm.trans ((h.cpus c').locks q hc'))

/-- The process of another CPU is not touched. -/
theorem Safe.untouched (h : Safe kernelPagetable initproc s) (hne : c' ≠ c)
    (hcpu : (s.cpu c').process = some p) : ¬ s.Touches initproc c p := by
  rintro (hown | ⟨hholds, hstate⟩)
  · exact hne (h.alone c' c p hcpu hown)
  · exact hne (h.holds_unique ((h.cpus c').holds_of_not_running hcpu hstate) hholds)

/-- The CPUs and slots that a step does not touch stay as they are. -/
theorem Safe.of_effect (h : Safe kernelPagetable initproc s) (heffect : Effect initproc s s' c)
    (hcpu : CpuOk kernelPagetable initproc s' c)
    (halone : ∀ p, (s'.cpu c).process = some p → (s.cpu c).process = some p ∨
      ∀ c', c' ≠ c → (s.cpu c').process ≠ some p)
    (hslots : ∀ q, s.Touches initproc c q → SlotOk s' q)
    (htables : ∀ p, s'.kPagetable p ≠ 0 → s'.kPagetable p ∉ s'.freed)
    (hdistinct : ∀ p q, s'.kPagetable p ≠ 0 → s'.kPagetable p = s'.kPagetable q → p = q) :
    Safe kernelPagetable initproc s' := by
  have hprocess : ∀ c', c' ≠ c → ∀ p, (s.cpu c').process = some p → s'.state p = s.state p ∧
      s'.kPagetable p = s.kPagetable p ∧ s'.pc p = s.pc p :=
    fun c' hne p hp => heffect.slots p (h.untouched hne hp)
  have hholds : ∀ c', c' ≠ c → ∀ q, s'.Holds initproc c' q → s.Holds initproc c' q := by
    intro c' hne q hq
    simp only [State.Holds, heffect.cpu c' hne] at hq ⊢
    cases hpc : s.cpu c' with
    | running p =>
        simp only [hpc] at hq ⊢
        rwa [(hprocess c' hne p (by simp [hpc, CpuPc.process])).2.2] at hq
    | idle => simp [hpc] at hq
    | _ => simpa [hpc] using hq
  refine ⟨fun c' => ?_, fun q => ?_, ?_, htables, hdistinct⟩
  · by_cases hne : c' = c
    · exact hne ▸ hcpu
    · have hold := h.cpus c'
      refine ⟨fun q hq => ?_, ?_, fun p hp => ?_, fun p hp => ?_, fun p np hp hpc => ?_⟩
      · have hq := hholds c' hne q hq
        rw [heffect.locks c' q hne hq]
        exact hold.locks q hq
      · rw [heffect.satp c' hne, heffect.cpu c' hne, hold.loaded]
        cases hp : (s.cpu c').process with
        | none => rfl
        | some p => simp [(hprocess c' hne p hp).2.1]
      · rw [heffect.cpu c' hne] at hp
        obtain ⟨hstate, -, hpc⟩ := hprocess c' hne p (by simp [hp, CpuPc.process])
        rw [hstate, hpc]
        exact hold.running p hp
      · rw [heffect.cpu c' hne] at hp
        rw [(hprocess c' hne p (by simp [hp, CpuPc.process])).1]
        exact hold.back p hp
      · rw [heffect.cpu c' hne] at hp
        rw [(hprocess c' hne p (by simp [hp, CpuPc.process])).2.2] at hpc
        obtain ⟨hunused, htable⟩ := hold.building p np hp hpc
        have huntouched : ¬ s.Touches initproc c np := by
          rintro (hown | ⟨hlock, -⟩)
          · exact (h.cpus c).state_ne_unused hown hunused
          · refine hne (h.holds_unique ?_ hlock)
            simp [State.Holds, hp, hpc, Pc.holds]
        obtain ⟨hstate, htable', -⟩ := heffect.slots np huntouched
        rw [hstate, htable']
        exact ⟨hunused, htable⟩
  · by_cases htouch : s.Touches initproc c q
    · exact hslots q htouch
    · obtain ⟨hstate, htable, hpc⟩ := heffect.slots q htouch
      have hold := h.slots q
      refine ⟨by rw [hpc]; exact hold.ok, ?_, ?_⟩
      · rw [hstate, hpc]
        exact hold.parked
      · rw [hstate, htable]
        exact hold.used
  · intro left right p hleft hright
    by_cases hl : left = c <;> by_cases hr : right = c
    · rw [hl, hr]
    · subst hl
      rw [heffect.cpu right hr] at hright
      rcases halone p hleft with hown | hothers
      · exact h.alone left right p hown hright
      · exact absurd hright (hothers right hr)
    · subst hr
      rw [heffect.cpu left hl] at hleft
      rcases halone p hright with hown | hothers
      · exact h.alone left right p hleft hown
      · exact absurd hleft (hothers left hl)
    · rw [heffect.cpu left hl] at hleft
      rw [heffect.cpu right hr] at hright
      exact h.alone left right p hleft hright

end Frame

/-! ## Steps -/

section Steps

variable [DecidableEq Cpu] [DecidableEq Slot] {kernelPagetable : ℕ} {initproc : Slot}
  {s s' : State Cpu Slot} {c : Cpu} {p q : Slot}

/-- How a step of `c` may change the locks: taking a free one or releasing one of its
own. -/
inductive LockChange (initproc : Slot) (s : State Cpu Slot) (c : Cpu) :
    (Slot → Option Cpu) → Prop
  | keep : LockChange initproc s c s.lock
  | acquire (q : Slot) (hfree : s.lock q = none) :
      LockChange initproc s c (Function.update s.lock q (some c))
  | release (q : Slot) (hholds : s.Holds initproc c q) :
      LockChange initproc s c (Function.update s.lock q none)

omit [DecidableEq Cpu] in
theorem LockChange.others {lock : Slot → Option Cpu} (hchange : LockChange initproc s c lock)
    (h : Safe kernelPagetable initproc s) (c' : Cpu) (q : Slot) (hne : c' ≠ c)
    (hq : s.Holds initproc c' q) : lock q = s.lock q := by
  cases hchange with
  | keep => rfl
  | acquire j hfree =>
      have hj : q ≠ j := by
        rintro rfl
        rw [(h.cpus c').locks q hq] at hfree
        cases hfree
      exact Function.update_of_ne hj _ _
  | release j hholds =>
      have hj : q ≠ j := by
        rintro rfl
        exact hne (h.holds_unique hq hholds)
      exact Function.update_of_ne hj _ _

omit [DecidableEq Cpu] in
/-- A process moves on; only its locks change. -/
theorem Safe.move (h : Safe kernelPagetable initproc s) (hcpu : s.cpu c = .running p)
    (hrunning : s.state p = .running) {pc : Pc Slot} {lock : Slot → Option Cpu}
    {parent : Slot → Option Slot} (hchange : LockChange initproc s c lock)
    (hholds : ∀ j, pc.holds initproc p j → lock j = some c) (hok : pc.ok p)
    (hbuild : ∀ np, pc ≠ .forkBuild np) :
    Safe kernelPagetable initproc
      { s with lock := lock, parent := parent, pc := Function.update s.pc p pc } := by
  have hown : (s.cpu c).process = some p := by simp [hcpu, CpuPc.process]
  have hne : ∀ q, ¬ s.Touches initproc c q → q ≠ p := by
    rintro q hq rfl
    exact hq (Or.inl hown)
  refine h.of_effect (c := c) ⟨fun _ _ => rfl, fun _ _ => rfl, hchange.others h, fun q hq =>
    ⟨rfl, rfl, Function.update_of_ne (hne q hq) _ _⟩⟩ ?_ (fun _ hp => Or.inl hp) ?_ h.tables
    h.distinct
  · have hold := h.cpus c
    refine ⟨?_, hold.loaded, fun p' hp => ?_, hold.back, fun p' np hp hpc => ?_⟩
    · intro j hj
      simp only [State.Holds, hcpu, Function.update_self] at hj
      exact hholds j hj
    · obtain rfl : p = p' := by simpa [hcpu] using hp
      exact Or.inl hrunning
    · obtain rfl : p = p' := by simpa [hcpu] using hp
      simp only [Function.update_self] at hpc
      exact absurd hpc (hbuild np)
  · intro q _
    have hold := h.slots q
    by_cases hq : q = p
    · subst hq
      exact ⟨by simpa using hok, by simp [hrunning], hold.used⟩
    · exact ⟨by simpa [hq] using hold.ok, by simpa [hq] using hold.parked, hold.used⟩

/-- `scheduler` moves on between two processes. -/
theorem Safe.schedule (h : Safe kernelPagetable initproc s) (hcpu : (s.cpu c).process = none)
    {cpu : CpuPc Slot} (hcpu' : cpu.process = none) {lock : Slot → Option Cpu}
    (hchange : LockChange initproc s c lock)
    (hholds : ∀ j, (State.setCpu s c cpu).Holds initproc c j → lock j = some c) :
    Safe kernelPagetable initproc { s with lock := lock, cpu := Function.update s.cpu c cpu } := by
  have hother : ∀ c', c' ≠ c → Function.update s.cpu c cpu c' = s.cpu c' :=
    fun c' hne => Function.update_of_ne hne _ _
  refine h.of_effect (c := c) ⟨hother, fun _ _ => rfl, hchange.others h, fun _ _ =>
    ⟨rfl, rfl, rfl⟩⟩ ?_ ?_ (fun q _ => ⟨(h.slots q).ok, (h.slots q).parked, (h.slots q).used⟩)
    h.tables h.distinct
  · refine ⟨hholds, ?_, fun p hp => ?_, fun p hp => ?_, fun p np hp => ?_⟩
    · simpa [hcpu, hcpu'] using (h.cpus c).loaded
    all_goals
      simp only [Function.update_self] at hp
      rw [hp] at hcpu'
      cases hcpu'
  · intro p hp
    simp [hcpu'] at hp

omit [DecidableEq Cpu] in
/-- Waking a process whose lock is held. -/
theorem Safe.wakeup (h : Safe kernelPagetable initproc s) (hholds : s.Holds initproc c q)
    (hstate : s.state q = .sleeping) :
    Safe kernelPagetable initproc (s.setState q .runnable) := by
  have htouch : s.Touches initproc c q := Or.inr ⟨hholds, by simp [hstate]⟩
  have hne : ∀ j, ¬ s.Touches initproc c j → j ≠ q := by
    rintro j hj rfl
    exact hj htouch
  refine h.of_effect (c := c) ⟨fun _ _ => rfl, fun _ _ => rfl, fun _ _ _ _ => rfl, fun j hj =>
    ⟨Function.update_of_ne (hne j hj) _ _, rfl, rfl⟩⟩ ?_ (fun _ hp => Or.inl hp) ?_ h.tables
    h.distinct
  · have hold := h.cpus c
    refine ⟨hold.locks, hold.loaded, fun p hp => ?_, fun p hp => ?_, fun p np hp hpc => ?_⟩
    · have hpq : p ≠ q := by
        rintro rfl
        rcases hold.running p hp with hrun | ⟨hrun, -⟩ <;> simp [hstate] at hrun
      simpa [hpq] using hold.running p hp
    · by_cases hpq : p = q
      · simp [hpq]
      · simpa [hpq] using hold.back p hp
    · obtain ⟨hunused, htable⟩ := hold.building p np hp hpc
      have hnp : np ≠ q := by
        rintro rfl
        simp [hstate] at hunused
      exact ⟨by simpa [hnp] using hunused, htable⟩
  · intro j _
    have hold := h.slots j
    by_cases hj : j = q
    · subst hj
      exact ⟨hold.ok, fun _ => hold.parked (Or.inr hstate), fun _ => hold.used (by simp [hstate])⟩
    · exact ⟨hold.ok, by simpa [hj] using hold.parked, by simpa [hj] using hold.used⟩

/-- `scheduler` switches to a process. -/
theorem Safe.switchTo (h : Safe kernelPagetable initproc s) (hcpu : s.cpu c = .holding p)
    (hstate : s.state p = .runnable) :
    Safe kernelPagetable initproc
      (((s.setState p .running).kvminithart c (s.kPagetable p)).setCpu c (.running p)) := by
  have hholds : s.Holds initproc c p := by simp [State.Holds, hcpu]
  have hne : ∀ j, ¬ s.Touches initproc c j → j ≠ p := by
    rintro j hj rfl
    exact hj (Or.inr ⟨hholds, by simp [hstate]⟩)
  have hvacant : ∀ c', c' ≠ c → (s.cpu c').process ≠ some p := by
    intro c' hc' hp
    exact h.untouched hc' hp (Or.inr ⟨hholds, by simp [hstate]⟩)
  have hslot := h.slots p
  refine h.of_effect (c := c) ⟨fun c' hc' => Function.update_of_ne hc' _ _,
    fun c' hc' => Function.update_of_ne hc' _ _, fun _ _ _ _ => rfl, fun j hj =>
    ⟨Function.update_of_ne (hne j hj) _ _, rfl, rfl⟩⟩ ?_ ?_ ?_ h.tables h.distinct
  · refine ⟨fun j hj => ?_, by simp [CpuPc.process], fun p' hp => ?_, by simp,
      fun p' np hp hpc => ?_⟩
    · have hparked := hslot.parked (Or.inl hstate)
      obtain rfl : j = p := by
        cases hpc : s.pc p <;>
          simp_all [State.Holds, Pc.holds, Pc.parked]
      exact (h.cpus c).locks j hholds
    · obtain rfl : p = p' := by simpa using hp
      exact Or.inl (by simp)
    · obtain rfl : p = p' := by simpa using hp
      have hparked := hslot.parked (Or.inl hstate)
      simp only [State.setCpu_pc, State.kvminithart_pc, State.setState_pc] at hpc
      simp [hpc, Pc.parked] at hparked
  · intro p' hp
    obtain rfl : p = p' := by simpa [CpuPc.process] using hp
    exact Or.inr hvacant
  · intro j _
    have hold := h.slots j
    by_cases hj : j = p
    · subst hj
      exact ⟨hold.ok, by simp, fun _ => hold.used (by simp [hstate])⟩
    · exact ⟨hold.ok, by simpa [hj] using hold.parked, by simpa [hj] using hold.used⟩

omit [DecidableEq Slot] in
/-- `kvminithart()` behind `swtch`. -/
theorem Safe.restore (h : Safe kernelPagetable initproc s) (hcpu : s.cpu c = .back p) :
    Safe kernelPagetable initproc
      ((s.kvminithart c kernelPagetable).setCpu c (.restored p)) := by
  refine h.of_effect (c := c) ⟨fun c' hc' => Function.update_of_ne hc' _ _,
    fun c' hc' => Function.update_of_ne hc' _ _, fun _ _ _ _ => rfl, fun _ _ =>
    ⟨rfl, rfl, rfl⟩⟩ ?_ (by simp [CpuPc.process])
    (fun q _ => ⟨(h.slots q).ok, (h.slots q).parked, (h.slots q).used⟩) h.tables h.distinct
  refine ⟨fun j hj => ?_, by simp [CpuPc.process], by simp, by simp, by simp⟩
  refine (h.cpus c).locks j ?_
  simpa [State.Holds, hcpu] using hj

omit [DecidableEq Cpu] [DecidableEq Slot] in
theorem Scheds.holds {pc pc' : Pc Slot} {state : ProcState} (hcode : Scheds pc state pc')
    (initproc p : Slot) :
    pc.holds initproc p p ∧ state ≠ .unused ∧ state ≠ .running ∧
      (state = .runnable ∨ state = .sleeping → pc'.parked) := by
  cases hcode <;> simp [Pc.holds, Pc.parked]

omit [DecidableEq Cpu] [DecidableEq Slot] in
theorem Scheds.ok {pc pc' : Pc Slot} {state : ProcState} (hcode : Scheds pc state pc')
    (hok : pc.ok p) : pc'.ok p := by
  cases hcode <;> simp_all [Pc.ok, Pc.interruptible]

/-- A process switches back to `scheduler`. -/
theorem Safe.sched (h : Safe kernelPagetable initproc s) (hcpu : s.cpu c = .running p)
    {state : ProcState} {pc : Pc Slot} (hcode : Scheds (s.pc p) state pc) :
    Safe kernelPagetable initproc (((s.setState p state).goto p pc).setCpu c (.back p)) := by
  have hown : (s.cpu c).process = some p := by simp [hcpu, CpuPc.process]
  have hne : ∀ j, ¬ s.Touches initproc c j → j ≠ p := by
    rintro j hj rfl
    exact hj (Or.inl hown)
  obtain ⟨hholds, hunused, hrunning, hparked⟩ := hcode.holds initproc p
  refine h.of_effect (c := c) ⟨fun c' hc' => Function.update_of_ne hc' _ _, fun _ _ => rfl,
    fun _ _ _ _ => rfl, fun j hj => ⟨Function.update_of_ne (hne j hj) _ _, rfl,
    Function.update_of_ne (hne j hj) _ _⟩⟩ ?_ ?_ ?_ h.tables h.distinct
  · refine ⟨fun j hj => ?_, ?_, by simp, fun p' hp => ?_, by simp⟩
    · obtain rfl : j = p := by simpa [State.Holds] using hj
      exact (h.cpus c).locks j (by simpa [State.Holds, hcpu] using hholds)
    · simpa [hcpu, CpuPc.process] using (h.cpus c).loaded
    · obtain rfl : p = p' := by simpa using hp
      simpa using ⟨hunused, hrunning⟩
  · intro p' hp
    obtain rfl : p = p' := by simpa [CpuPc.process] using hp
    exact Or.inl hown
  · intro j _
    have hold := h.slots j
    by_cases hj : j = p
    · subst hj
      refine ⟨by simpa using hcode.ok hold.ok, by simpa using hparked, fun _ => hold.used ?_⟩
      exact (h.cpus c).state_ne_unused hown
    · exact ⟨by simpa [hj] using hold.ok, by simpa [hj] using hold.parked,
        by simpa [hj] using hold.used⟩

omit [DecidableEq Cpu] in
/-- A process becomes a zombie; it still holds its own lock. -/
theorem Safe.zombie (h : Safe kernelPagetable initproc s) (hcpu : s.cpu c = .running p)
    {originalParent : Slot} (hpc : s.pc p = .exitBoth originalParent) :
    Safe kernelPagetable initproc
      (((s.setState p .zombie).setLock originalParent none).goto p .exitZombie) := by
  have hown : (s.cpu c).process = some p := by simp [hcpu, CpuPc.process]
  have hne : ∀ j, ¬ s.Touches initproc c j → j ≠ p := by
    rintro j hj rfl
    exact hj (Or.inl hown)
  have hchange : LockChange initproc s c (Function.update s.lock originalParent none) :=
    .release originalParent (by simp [State.Holds, hcpu, hpc, Pc.holds])
  have hparent : originalParent ≠ p := by
    have hok := (h.slots p).ok
    rwa [hpc] at hok
  refine h.of_effect (c := c) ⟨fun _ _ => rfl, fun _ _ => rfl, hchange.others h, fun j hj =>
    ⟨Function.update_of_ne (hne j hj) _ _, rfl, Function.update_of_ne (hne j hj) _ _⟩⟩ ?_
    (fun _ hp => Or.inl hp) ?_ h.tables h.distinct
  · refine ⟨fun j hj => ?_, (h.cpus c).loaded, fun p' hp => ?_, fun p' hp => ?_,
      fun p' np hp hpc' => ?_⟩
    · obtain rfl : j = p := by simpa [State.Holds, hcpu, Pc.holds] using hj
      simpa [hparent.symm] using (h.cpus c).locks j (by simp [State.Holds, hcpu, hpc, Pc.holds])
    · obtain rfl : p = p' := by simpa [hcpu] using hp
      exact Or.inr (by simp)
    · simp [hcpu] at hp
    · obtain rfl : p = p' := by simpa [hcpu] using hp
      simp at hpc'
  · intro j _
    have hold := h.slots j
    by_cases hj : j = p
    · subst hj
      refine ⟨by simp [Pc.ok], by simp, fun _ => hold.used ?_⟩
      exact (h.cpus c).state_ne_unused hown
    · exact ⟨by simpa [hj] using hold.ok, by simpa [hj] using hold.parked,
        by simpa [hj] using hold.used⟩

omit [DecidableEq Cpu] in
/-- A process works on another slot whose lock it holds and that no CPU is running. -/
theorem Safe.change (h : Safe kernelPagetable initproc s) (hcpu : s.cpu c = .running p)
    (hrunning : s.state p = .running) {np : Slot} (hholds : s.Holds initproc c np)
    (hidle : s.state np ≠ .running) (state : ProcState) (table : ℕ) (freed : Set ℕ)
    (parent : Slot → Option Slot) (pc pcNew : Pc Slot)
    (hkeep : ∀ j, pc.holds initproc p j → (s.pc p).holds initproc p j) (hok : pc.ok p)
    (hbuild : ∀ m, pc = .forkBuild m → m = np ∧ state = .unused ∧ table ≠ 0)
    (hslot : pcNew.ok np ∧ (state = .runnable ∨ state = .sleeping → pcNew.parked) ∧
      (state ≠ .unused → table ≠ 0))
    (htable : table ≠ 0 → table ∉ freed ∧ ∀ q, q ≠ np → s.kPagetable q ≠ table)
    (hfreed : ∀ q, q ≠ np → s.kPagetable q ≠ 0 → s.kPagetable q ∉ freed) :
    Safe kernelPagetable initproc
      { s with
        state := Function.update s.state np state
        kPagetable := Function.update s.kPagetable np table
        freed := freed
        parent := parent
        pc := Function.update (Function.update s.pc np pcNew) p pc } := by
  have hown : (s.cpu c).process = some p := by simp [hcpu, CpuPc.process]
  have hnp : np ≠ p := by
    rintro rfl
    exact hidle hrunning
  have htouch : ∀ j, ¬ s.Touches initproc c j → j ≠ p ∧ j ≠ np := by
    intro j hj
    refine ⟨?_, ?_⟩
    · rintro rfl
      exact hj (Or.inl hown)
    · rintro rfl
      exact hj (Or.inr ⟨hholds, hidle⟩)
  refine h.of_effect (c := c) ⟨fun _ _ => rfl, fun _ _ => rfl, fun _ _ _ _ => rfl, fun j hj => ?_⟩
    ?_ (fun _ hp => Or.inl hp) ?_ ?_ ?_
  · obtain ⟨hp, hj⟩ := htouch j hj
    simp [hp, hj]
  · have hold := h.cpus c
    refine ⟨fun j hj => ?_, ?_, fun p' hp => ?_, fun p' hp => ?_, fun p' m hp hpc => ?_⟩
    · refine hold.locks j ?_
      simp only [State.Holds, hcpu, Function.update_self] at hj ⊢
      exact hkeep j hj
    · simpa [hcpu, CpuPc.process, hnp.symm] using hold.loaded
    · obtain rfl : p = p' := by simpa [hcpu] using hp
      exact Or.inl (by simpa [hnp.symm] using hrunning)
    · simp [hcpu] at hp
    · obtain rfl : p = p' := by simpa [hcpu] using hp
      simp only [Function.update_self] at hpc
      obtain ⟨rfl, hstate, hne⟩ := hbuild m hpc
      exact ⟨by simpa using hstate, by simpa using hne⟩
  · intro j _
    have hold := h.slots j
    by_cases hp : j = p
    · subst hp
      exact ⟨by simpa using hok, by simp [hnp.symm, hrunning], by simpa [hnp.symm] using hold.used⟩
    · by_cases hj : j = np
      · subst hj
        simpa [hp] using (⟨by simpa [hp] using hslot.1, by simpa [hp] using hslot.2.1,
          by simpa using hslot.2.2⟩ : SlotOk _ j)
      · exact ⟨by simpa [hp, hj] using hold.ok, by simpa [hp, hj] using hold.parked,
          by simpa [hj] using hold.used⟩
  · intro j
    by_cases hj : j = np
    · subst hj
      simpa using fun hne => (htable hne).1
    · simpa [hj] using hfreed j hj
  · intro j k
    by_cases hj : j = np <;> by_cases hk : k = np
    · exact fun _ _ => hj.trans hk.symm
    · subst hj
      simp only [Function.update_self, Function.update_of_ne hk]
      exact fun hne heq => absurd heq.symm ((htable hne).2 k hk)
    · subst hk
      simp only [Function.update_self, Function.update_of_ne hj]
      exact fun hne heq => absurd heq ((htable (heq ▸ hne)).2 j hj)
    · simpa [hj, hk] using h.distinct j k

omit [DecidableEq Cpu] [DecidableEq Slot] in
theorem Safe.running_of (h : Safe kernelPagetable initproc s) (hcpu : s.cpu c = .running p)
    (hne : s.pc p ≠ .exitZombie) : s.state p = .running :=
  ((h.cpus c).running p hcpu).resolve_right fun hzombie => hne hzombie.2

omit [DecidableEq Cpu] [DecidableEq Slot] in
theorem State.holds_of_running (hcpu : s.cpu c = .running p) :
    s.Holds initproc c q ↔ (s.pc p).holds initproc p q := by
  simp [State.Holds, hcpu]

omit [DecidableEq Cpu] in
theorem Safe.acquire (h : Safe kernelPagetable initproc s) (hcpu : s.cpu c = .running p)
    {pc : Pc Slot} (hcode : Acquires initproc s p (s.pc p) q pc) (hfree : s.lock q = none) :
    Safe kernelPagetable initproc ((s.setLock q (some c)).goto p pc) := by
  have hlocks : ∀ j, (s.pc p).holds initproc p j → s.lock j = some c := fun j hj =>
    (h.cpus c).locks j ((State.holds_of_running hcpu).mpr hj)
  have hnot : ¬ (s.pc p).holds initproc p q := by
    intro hq
    rw [hlocks q hq] at hfree
    cases hfree
  refine h.move hcpu (h.running_of hcpu ?_) (.acquire q hfree) (fun j hj => ?_)
    (hcode.ok hnot (h.slots p).ok) ?_
  · intro heq
    rw [heq] at hcode
    cases hcode <;> simp_all [Pc.interruptible]
  · by_cases hj' : j = q
    · simp [hj']
    · simpa [hj'] using hlocks j ((hcode.holds j hj).resolve_right hj')
  · intro np heq
    subst heq
    generalize s.pc p = before at hcode
    cases hcode

omit [DecidableEq Cpu] in
/-- A process releases one of its locks and moves on. -/
theorem Safe.release (h : Safe kernelPagetable initproc s) (hcpu : s.cpu c = .running p)
    {pc : Pc Slot} (parent : Slot → Option Slot) (hne : s.pc p ≠ .exitZombie)
    (hheld : (s.pc p).holds initproc p q)
    (hholds : ∀ j, pc.holds initproc p j → (s.pc p).holds initproc p j ∧ j ≠ q) (hok : pc.ok p)
    (hbuild : ∀ np, pc ≠ .forkBuild np) :
    Safe kernelPagetable initproc
      (({ s with parent := parent } : State Cpu Slot).setLock q none |>.goto p pc) := by
  refine h.move hcpu (h.running_of hcpu hne)
    (.release q ((State.holds_of_running hcpu).mpr hheld)) (fun j hj => ?_) hok hbuild
  obtain ⟨hold, hj'⟩ := hholds j hj
  simpa [hj'] using (h.cpus c).locks j ((State.holds_of_running hcpu).mpr hold)

omit [DecidableEq Cpu] [DecidableEq Slot] in
theorem Releases.ok {pc pc' : Pc Slot} (hcode : Releases initproc s p pc q pc') (hok : pc.ok p) :
    pc'.ok p ∧ (∀ np, pc' ≠ .forkBuild np) ∧ pc ≠ .exitZombie := by
  cases hcode with
  | resumed =>
      refine ⟨Pc.interruptible.ok hok, ?_, by simp⟩
      rintro np rfl
      exact hok
  | wakeup =>
      refine ⟨Pc.interruptible.ok hok, ?_, by simp⟩
      rintro np rfl
      exact hok
  | _ => simp [Pc.ok]

omit [DecidableEq Cpu] [DecidableEq Slot] in
theorem Wakes.releases {pc pc' : Pc Slot} (hcode : Wakes initproc pc q pc') :
    Releases initproc s p pc q pc' := by
  cases hcode with
  | wakeup => exact .wakeup
  | exitInit => exact .exitInit

omit [DecidableEq Cpu] in
theorem Safe.release_code (h : Safe kernelPagetable initproc s) (hcpu : s.cpu c = .running p)
    {pc : Pc Slot} (hcode : Releases initproc s p (s.pc p) q pc) :
    Safe kernelPagetable initproc ((s.setLock q none).goto p pc) := by
  obtain ⟨hheld, hholds⟩ := hcode.holds (h.slots p).ok
  obtain ⟨hok, hbuild, hne⟩ := hcode.ok (h.slots p).ok
  exact h.release hcpu s.parent hne hheld hholds hok hbuild

omit [DecidableEq Cpu] in
/-- `kvminit_proc` gives the slot a table that nobody uses. -/
theorem Safe.kvminitProc (h : Safe kernelPagetable initproc s) (hcpu : s.cpu c = .running p)
    {np : Slot} (hpc : s.pc p = .forkTest np) (hstate : s.state np = .unused) {table : ℕ}
    (hnull : table ≠ 0) (hfresh : ∀ q, s.kPagetable q ≠ table) :
    Safe kernelPagetable initproc ((s.kvminitProc np table).goto p (.forkBuild np)) := by
  have hholds : s.Holds initproc c np := by simp [State.Holds, hcpu, hpc, Pc.holds]
  have hchange := h.change hcpu (h.running_of hcpu (by simp [hpc])) hholds (by simp [hstate])
    .unused table (s.freed \ {table}) s.parent (.forkBuild np) (s.pc np) (by simp [hpc, Pc.holds])
    trivial (fun m heq => ⟨(Pc.forkBuild.inj heq).symm, rfl, hnull⟩)
    ⟨(h.slots np).ok, by simp, by simp⟩ (fun _ => ⟨by simp, fun q _ => hfresh q⟩)
    (fun q _ hne hmem => h.tables q hne hmem.1)
  rw [Function.update_eq_self, ← hstate, Function.update_eq_self] at hchange
  exact hchange

omit [DecidableEq Cpu] in
/-- `fork` makes the new process runnable. -/
theorem Safe.forkDone (h : Safe kernelPagetable initproc s) (hcpu : s.cpu c = .running p)
    {np : Slot} (hpc : s.pc p = .forkBuild np) :
    Safe kernelPagetable initproc
      ((((s.setParent np (some p)).setState np .runnable).goto np (.resumed .user)).goto p
        (.forkRelease np)) := by
  have hholds : s.Holds initproc c np := by simp [State.Holds, hcpu, hpc, Pc.holds]
  obtain ⟨hunused, htable⟩ := (h.cpus c).building p np hcpu hpc
  have hchange := h.change hcpu (h.running_of hcpu (by simp [hpc])) hholds (by simp [hunused])
    .runnable (s.kPagetable np) s.freed (Function.update s.parent np (some p)) (.forkRelease np)
    (.resumed .user) (by simp [hpc, Pc.holds]) trivial (by simp)
    ⟨trivial, fun _ => trivial, fun _ => htable⟩
    (fun hne => ⟨h.tables np hne, fun q hq heq => hq (h.distinct q np (heq ▸ hne) heq)⟩)
    (fun q _ hne => h.tables q hne)
  rw [Function.update_eq_self] at hchange
  exact hchange

omit [DecidableEq Cpu] in
/-- `freeproc` frees the table of a slot that no CPU is running. -/
theorem Safe.freeproc (h : Safe kernelPagetable initproc s) (hcpu : s.cpu c = .running p)
    {np : Slot} {pc : Pc Slot} (hcode : Frees s (s.pc p) np pc) :
    Safe kernelPagetable initproc ((s.freeproc np).goto p pc) := by
  have hcalls : (s.pc p).holds initproc p np ∧ s.state np ≠ .running ∧ s.pc p ≠ .exitZombie ∧
      (∀ j, pc.holds initproc p j → (s.pc p).holds initproc p j) ∧ pc.ok p ∧
      ∀ m, pc ≠ .forkBuild m := by
    have hok := (h.slots p).ok
    have hbuilding := (h.cpus c).building p
    generalize s.pc p = before at hcode hok hbuilding
    cases hcode with
    | wait hstate => simp_all [Pc.holds, Pc.ok]
    | noKernelTable hstate => simp_all [Pc.holds, Pc.ok]
    | fork => simp [Pc.holds, Pc.ok, (hbuilding np hcpu rfl).1]
  obtain ⟨hholds, hstate, hne, hkeep, hok, hbuild⟩ := hcalls
  have hchange := h.change hcpu (h.running_of hcpu hne)
    ((State.holds_of_running hcpu).mpr hholds) hstate .unused 0
    (if s.kPagetable np = 0 then s.freed else insert (s.kPagetable np) s.freed)
    (Function.update s.parent np none) pc (s.pc np) hkeep hok
    (fun m heq => absurd heq (hbuild m)) ⟨(h.slots np).ok, by simp, by simp⟩ (by simp) ?_
  · rw [Function.update_eq_self] at hchange
    exact hchange
  · intro q hq hne
    have hold := h.tables q hne
    split
    · exact hold
    · rintro (heq | hmem)
      · exact hq (h.distinct q np hne heq)
      · exact hold hmem

theorem Safe.step (h : Safe kernelPagetable initproc s)
    (hstep : Step kernelPagetable initproc s s') : Safe kernelPagetable initproc s' := by
  cases hstep with
  | @pick c p hcpu hfree =>
      refine h.schedule (by simp [hcpu, CpuPc.process]) rfl (.acquire p hfree) ?_
      simp [State.Holds]
  | @skip c p hcpu hstate =>
      refine h.schedule (by simp [hcpu, CpuPc.process]) rfl
        (.release p (by simp [State.Holds, hcpu])) ?_
      simp [State.Holds]
  | switchTo hcpu hstate => exact h.switchTo hcpu hstate
  | restore hcpu => exact h.restore hcpu
  | @leave c p hcpu =>
      refine h.schedule (by simp [hcpu, CpuPc.process]) rfl
        (.release p (by simp [State.Holds, hcpu])) ?_
      simp [State.Holds]
  | @interrupt c q hcpu hfree =>
      refine h.schedule (by simp [hcpu, CpuPc.process]) rfl (.acquire q hfree) ?_
      simp [State.Holds]
  | @interruptWake c q hcpu hstate =>
      have hholds : s.Holds initproc c q := by simp [State.Holds, hcpu]
      refine (h.wakeup hholds hstate).schedule (by simp [hcpu, CpuPc.process]) rfl
        (.release q (by simp [State.Holds, hcpu])) ?_
      simp [State.Holds]
  | @interruptNone c q hcpu =>
      refine h.schedule (by simp [hcpu, CpuPc.process]) rfl
        (.release q (by simp [State.Holds, hcpu])) ?_
      simp [State.Holds]
  | acquire hcpu hcode hfree => exact h.acquire hcpu hcode hfree
  | release hcpu hcode => exact h.release_code hcpu hcode
  | @wake c p q pc hcpu hcode hstate =>
      have hheld := ((hcode.releases (s := s) (p := p)).holds (h.slots p).ok).1
      have hwoken := h.wakeup ((State.holds_of_running hcpu).mpr hheld) hstate
      exact hwoken.release_code hcpu hcode.releases
  | @fork c p hcpu hpc =>
      exact h.move hcpu (h.running_of hcpu (by simp [hpc])) .keep (by simp [Pc.holds]) trivial
        (by simp)
  | @forkFull c p hcpu hpc =>
      exact h.move hcpu (h.running_of hcpu (by simp [hpc])) .keep (by simp [Pc.holds]) trivial
        (by simp)
  | kvminitProc table hcpu hpc hstate hnull hkernel hfresh =>
      exact h.kvminitProc hcpu hpc hstate hnull hfresh
  | forkDone hcpu hpc => exact h.forkDone hcpu hpc
  | freeproc hcpu hcode => exact h.freeproc hcpu hcode
  | @reparent c p originalParent pp hcpu hpc =>
      have hok := (h.slots p).ok
      rw [hpc] at hok
      refine h.release hcpu _ (by simp [hpc]) (by simp [hpc, Pc.holds]) ?_ hok.1 (by simp)
      rintro j (rfl | rfl)
      · exact ⟨by simp [hpc, Pc.holds], Ne.symm hok.2.2⟩
      · exact ⟨by simp [hpc, Pc.holds], Ne.symm hok.2.1⟩
  | @wakeParent c p originalParent hcpu hpc hstate =>
      exact h.wakeup ((State.holds_of_running hcpu).mpr (by simp [hpc, Pc.holds])) hstate
  | zombie hcpu hpc => exact h.zombie hcpu hpc
  | sched hcpu hcode => exact h.sched hcpu hcode

end Steps

section Main

variable [DecidableEq Cpu] [DecidableEq Slot] {kernelPagetable table : ℕ} {initproc : Slot}
  {s : State Cpu Slot}

omit [DecidableEq Cpu] in
theorem safe_boot (htable : table ≠ 0) :
    Safe kernelPagetable initproc (State.boot kernelPagetable initproc table :
      State Cpu Slot) := by
  refine ⟨fun c => ?_, fun p => ?_, by simp [CpuPc.process], by simp, fun p q => ?_⟩
  · exact ⟨by simp [State.Holds], by simp [CpuPc.process], by simp, by simp, by simp⟩
  · refine ⟨trivial, fun _ => trivial, ?_⟩
    simp only [State.boot_state, State.boot_kPagetable]
    split <;> simp [htable]
  · simp only [State.boot_kPagetable]
    split <;> split <;> simp_all

/-- **No CPU runs on a freed kernel page table.**  In every state that the CPUs and the
processes can reach, the table that a CPU has loaded last is the global kernel page
table, or that of a process that exists and whose table has not been freed. -/
theorem loaded_table_live (htable : table ≠ 0)
    (hreach : Reachable (Step kernelPagetable initproc)
      (State.boot kernelPagetable initproc table) s) (c : Cpu) :
    s.satp c = kernelPagetable ∨
      ∃ p, s.satp c = s.kPagetable p ∧ s.state p ≠ .unused ∧ s.kPagetable p ∉ s.freed := by
  have h : Safe kernelPagetable initproc s := reachable_invariant
    (Safe kernelPagetable initproc) (safe_boot htable) (fun _ _ hsafe hstep => hsafe.step hstep)
    hreach
  have hloaded := (h.cpus c).loaded
  cases hp : (s.cpu c).process with
  | none => exact Or.inl (by simpa [hp] using hloaded)
  | some p =>
      have hstate := (h.cpus c).state_ne_unused hp
      exact Or.inr ⟨p, by simpa [hp] using hloaded, hstate,
        h.tables p ((h.slots p).used hstate)⟩

/-- CPU 0 has switched to the first process. -/
theorem loaded_table_live_first : ∃ s : State (Fin 2) (Fin 3),
    Reachable (Step 100 0) (State.boot 100 0 200) s ∧ s.satp 0 = 200 ∧
      (s.satp 0 = 100 ∨ ∃ p, s.satp 0 = s.kPagetable p ∧ s.state p ≠ .unused ∧
        s.kPagetable p ∉ s.freed) := by
  have hreach := Relation.ReflTransGen.refl (r := Step 100 0)
    (a := (State.boot 100 0 200 : State (Fin 2) (Fin 3)))
  replace hreach := hreach.tail (.pick (c := 0) 0 rfl rfl)
  replace hreach := hreach.tail (.switchTo (c := 0) rfl rfl)
  exact ⟨_, hreach, rfl, loaded_table_live (by decide) hreach 0⟩

end Main

end OperateSystem.Sched

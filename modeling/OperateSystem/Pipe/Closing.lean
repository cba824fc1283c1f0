import Mathlib.Data.Fintype.Basic
import OperateSystem.Pipe.Accounts

/-!
# The life of a pipe

Processes share the two ends of a pipe, sleep in the calls on it and wake one another.  Here
`sleep` and `wakeup` are spelled out: a process that goes to sleep gives up the lock of the
pipe before it is marked as sleeping, and holds its own lock in between; a wakeup looks at
one process after the other under their locks.

What the rest of the kernel does with the two files is an assumption.  A process calls
`pipewrite` or `piperead` only when it refers to a file of that end, references are only
copied, and the process that drops the last one calls `pipeclose`.  The page of the pipe
is then freed once, and nobody is in a call on it any more.
-/

namespace OperateSystem.Pipe.Closing

open OperateSystem.Invariant

/-! ## Processes -/

/-- The two ends, and the channel that those who use an end sleep on: `&pi->nread` and
`&pi->nwrite`. -/
inductive Side
  | read
  | write
  deriving DecidableEq

def Side.other : Side → Side
  | .read => .write
  | .write => .read

/-- What a call that sleeps goes on with: `pipewrite` with its `n` and `i`, `piperead` with
its `n`.  A count below zero does what the count zero does. -/
inductive Frame
  | write (n i : ℕ)
  | read (n : ℕ)

def Frame.side : Frame → Side
  | .write _ _ => .write
  | .read _ => .read

/-- A process in `sleep(chan, &pi->lock)`: it has its own lock, it has given up the lock of
the pipe, its state is SLEEPING. -/
inductive Doze
  | locked
  | released
  | asleep
  deriving DecidableEq

/-- What follows a wakeup: the sleep of `pipewrite`, the end of `pipewrite` or `piperead`, or
the test of `pipeclose`. -/
inductive Next
  | sleep (n i : ℕ)
  | done
  | closeTest

/-- Where a process is. -/
inductive Pc
  | idle
  /-- It waits for the lock of the pipe, at the start of a call or back from `sleep`. -/
  | acquire (frame : Frame)
  | writeLoop (n i : ℕ)
  | readWait (n : ℕ)
  | readLoop (n i : ℕ)
  /-- `wakeup(chan)`, with process number `q` next. -/
  | wakeup (chan : Side) (q : ℕ) (next : Next)
  | sleep (frame : Frame) (doze : Doze)
  | closeAcquire (side : Side)
  | closeTest
  | closeFree

namespace Pc

/-- The process holds the lock of the pipe. -/
def inside : Pc → Bool
  | .writeLoop _ _ | .readWait _ | .readLoop _ _ | .wakeup _ _ _ => true
  | .sleep _ .locked | .closeTest => true
  | _ => false

/-- The process holds its own lock, on its way to sleep. -/
def ownLock : Pc → Bool
  | .sleep _ .locked | .sleep _ .released => true
  | _ => false

/-- The end that a call in progress uses. -/
def uses : Pc → Option Side
  | .acquire frame | .sleep frame _ => some frame.side
  | .writeLoop _ _ => some .write
  | .readWait _ | .readLoop _ _ => some .read
  | .wakeup _ _ .closeTest => none
  | .wakeup chan _ _ => some chan.other
  | _ => none

/-- The process is in `pipeclose` and has marked its end as closed. -/
def marked : Pc → Bool
  | .wakeup _ _ .closeTest | .closeTest | .closeFree => true
  | _ => false

/-- The body of the loop of `wakeup(chan)`, for a process that is here. -/
def wake (chan : Side) : Pc → Pc
  | .sleep frame .asleep => if frame.side = chan then .acquire frame else .sleep frame .asleep
  | pc => pc

/-- What `kill` does to a sleeping process. -/
def rouse : Pc → Pc
  | .sleep frame .asleep => .acquire frame
  | pc => pc

end Pc

def Frame.resume : Frame → Pc
  | .write n i => .writeLoop n i
  | .read n => .readWait n

/-! ## The pipe -/

/-- `pi->readopen` and `pi->writeopen`. -/
def isOpen (pi : PipeData) : Side → Bool
  | .read => pi.readopen
  | .write => pi.writeopen

/-- `pi->writeopen = 0` or `pi->readopen = 0`. -/
def closeSide (pi : PipeData) : Side → PipeData
  | .read => { pi with readopen := false }
  | .write => { pi with writeopen := false }

/-- The pipe, its lock, the processes with the references that each has to the two files, and
the number of times the page has been given to `kfree`.

Two records are kept of what has happened: whether bytes have been put in since readers
were last woken up, and whether a killed process has given up `pipewrite`. -/
structure State (nproc : ℕ) where
  pi : PipeData
  lock : Option (Fin nproc)
  pc : Fin nproc → Pc
  killed : Fin nproc → Bool
  refs : Side → Fin nproc → ℕ
  freed : ℕ
  unannounced : Bool
  gaveUp : Bool

variable {nproc : ℕ}

namespace State

/-- `pipealloc` in a page that `kalloc` returns, called by process `p`. -/
def pipealloc (page : ℕ → Byte) (p : Fin nproc) (killed : Fin nproc → Bool) : State nproc where
  pi := ⟨⟨page, 0, 0⟩, true, true, by simp [RingBuffer.Buffer.count]⟩
  lock := none
  pc _ := .idle
  killed := killed
  refs _ q := if q = p then 1 else 0
  freed := 0
  unannounced := false
  gaveUp := false

def goto (s : State nproc) (p : Fin nproc) (pc : Pc) : State nproc :=
  { s with pc := Function.update s.pc p pc }

/-- The same with the lock of the pipe taken or given up. -/
def gotoLock (s : State nproc) (p : Fin nproc) (pc : Pc) (lock : Option (Fin nproc)) :
    State nproc :=
  { s with pc := Function.update s.pc p pc, lock := lock }

def setPipe (s : State nproc) (pi : PipeData) : State nproc := { s with pi := pi }

def setRefs (s : State nproc) (side : Side) (p : Fin nproc) (count : ℕ) : State nproc :=
  { s with refs := Function.update s.refs side (Function.update (s.refs side) p count) }

/-- Process `p` starts `wakeup(chan)`. -/
def startWakeup (s : State nproc) (p : Fin nproc) (chan : Side) (next : Next) : State nproc :=
  { s with
    pc := Function.update s.pc p (.wakeup chan 0 next)
    unannounced := s.unannounced && decide (chan ≠ .read) }

/-- No process refers to a file of this end. -/
def Dropped (s : State nproc) (side : Side) : Prop := ∀ p, s.refs side p = 0

instance (s : State nproc) (side : Side) : Decidable (s.Dropped side) :=
  inferInstanceAs (Decidable (∀ _, _))

end State

/-- `pipewrite`, `piperead` and `pipeclose` by any number of processes. -/
inductive Step : State nproc → State nproc → Prop
  /-- `filedup` for process `q`: `p` itself in `dup`, a new process in `fork`. -/
  | filedup {s : State nproc} {p : Fin nproc} (side : Side) (q : Fin nproc)
      (hpc : s.pc p = .idle) (href : 0 < s.refs side p) :
      Step s (s.setRefs side q (s.refs side q + 1))
  | fileclose {s : State nproc} {p : Fin nproc} (side : Side) (hpc : s.pc p = .idle)
      (href : 0 < s.refs side p)
      (hmore : ¬ (s.setRefs side p (s.refs side p - 1)).Dropped side) :
      Step s (s.setRefs side p (s.refs side p - 1))
  | filecloseLast {s : State nproc} {p : Fin nproc} (side : Side) (hpc : s.pc p = .idle)
      (href : 0 < s.refs side p)
      (hlast : (s.setRefs side p (s.refs side p - 1)).Dropped side) :
      Step s ((s.setRefs side p (s.refs side p - 1)).goto p (.closeAcquire side))
  | kill {s : State nproc} {p : Fin nproc} (hlock : ¬ (s.pc p).ownLock) :
      Step s { s.goto p (s.pc p).rouse with killed := Function.update s.killed p true }
  /-- The process has exited, and its parent frees the slot. -/
  | freeproc {s : State nproc} {p : Fin nproc} (hpc : s.pc p = .idle)
      (hrefs : ∀ side, s.refs side p = 0) :
      Step s { s with killed := Function.update s.killed p false }
  | pipewrite {s : State nproc} {p : Fin nproc} (n : ℕ) (hpc : s.pc p = .idle)
      (href : 0 < s.refs .write p) : Step s (s.goto p (.acquire (.write n 0)))
  | piperead {s : State nproc} {p : Fin nproc} (n : ℕ) (hpc : s.pc p = .idle)
      (href : 0 < s.refs .read p) : Step s (s.goto p (.acquire (.read n)))
  | acquire {s : State nproc} {p : Fin nproc} {frame : Frame} (hpc : s.pc p = .acquire frame)
      (hlock : s.lock = none) : Step s (s.gotoLock p frame.resume (some p))
  | writeDone {s : State nproc} {p : Fin nproc} {n i : ℕ} (hpc : s.pc p = .writeLoop n i)
      (hi : n ≤ i) : Step s (s.startWakeup p .read .done)
  | writeFail {s : State nproc} {p : Fin nproc} {n i : ℕ} (hpc : s.pc p = .writeLoop n i)
      (hi : i < n) (hfull : s.pi.Full) (hfail : s.pi.readopen = false ∨ s.killed p) :
      Step s { s.gotoLock p .idle none with gaveUp := s.gaveUp || s.killed p }
  | writeFull {s : State nproc} {p : Fin nproc} {n i : ℕ} (hpc : s.pc p = .writeLoop n i)
      (hi : i < n) (hfull : s.pi.Full) (hopen : s.pi.readopen) (hkilled : s.killed p = false) :
      Step s (s.startWakeup p .read (.sleep n i))
  /-- `copyin_new` fails. -/
  | writeFault {s : State nproc} {p : Fin nproc} {n i : ℕ} (hpc : s.pc p = .writeLoop n i)
      (hi : i < n) (hroom : ¬ s.pi.Full) : Step s (s.startWakeup p .read .done)
  | writeByte {s : State nproc} {p : Fin nproc} {n i : ℕ} (hpc : s.pc p = .writeLoop n i)
      (hi : i < n) (hroom : ¬ s.pi.Full) (ch : Byte) :
      Step s { (s.setPipe (s.pi.append ch hroom)).goto p (.writeLoop n (i + 1)) with
        unannounced := true }
  | readFail {s : State nproc} {p : Fin nproc} {n : ℕ} (hpc : s.pc p = .readWait n)
      (hempty : s.pi.Empty) (hopen : s.pi.writeopen) (hkilled : s.killed p) :
      Step s (s.gotoLock p .idle none)
  /-- `piperead` calls `sleep`, which takes the lock of the process. -/
  | readSleep {s : State nproc} {p : Fin nproc} {n : ℕ} (hpc : s.pc p = .readWait n)
      (hempty : s.pi.Empty) (hopen : s.pi.writeopen) (hkilled : s.killed p = false) :
      Step s (s.goto p (.sleep (.read n) .locked))
  | readStart {s : State nproc} {p : Fin nproc} {n : ℕ} (hpc : s.pc p = .readWait n)
      (hready : ¬ (s.pi.Empty ∧ s.pi.writeopen)) : Step s (s.goto p (.readLoop n 0))
  | readDone {s : State nproc} {p : Fin nproc} {n i : ℕ} (hpc : s.pc p = .readLoop n i)
      (hend : n ≤ i ∨ s.pi.Empty) : Step s (s.startWakeup p .write .done)
  | readByte {s : State nproc} {p : Fin nproc} {n i : ℕ} (hpc : s.pc p = .readLoop n i)
      (hi : i < n) (hsome : ¬ s.pi.Empty) :
      Step s ((s.setPipe (s.pi.take hsome).2).goto p (.readLoop n (i + 1)))
  /-- `copyout` fails; the byte has been taken. -/
  | readFault {s : State nproc} {p : Fin nproc} {n i : ℕ} (hpc : s.pc p = .readLoop n i)
      (hi : i < n) (hsome : ¬ s.pi.Empty) :
      Step s ((s.setPipe (s.pi.take hsome).2).startWakeup p .write .done)
  | wakeupSlot {s : State nproc} {p : Fin nproc} {chan : Side} {next : Next} (q : Fin nproc)
      (hpc : s.pc p = .wakeup chan q next) (hlock : ¬ (s.pc q).ownLock) :
      Step s ((s.goto q ((s.pc q).wake chan)).goto p (.wakeup chan (q + 1) next))
  | wakeupSleep {s : State nproc} {p : Fin nproc} {n i : ℕ}
      (hpc : s.pc p = .wakeup .read nproc (.sleep n i)) :
      Step s (s.goto p (.sleep (.write n i) .locked))
  | wakeupDone {s : State nproc} {p : Fin nproc} {chan : Side}
      (hpc : s.pc p = .wakeup chan nproc .done) : Step s (s.gotoLock p .idle none)
  | wakeupClose {s : State nproc} {p : Fin nproc} {chan : Side}
      (hpc : s.pc p = .wakeup chan nproc .closeTest) : Step s (s.goto p .closeTest)
  /-- `sleep` gives up the lock of the pipe. -/
  | sleepRelease {s : State nproc} {p : Fin nproc} {frame : Frame}
      (hpc : s.pc p = .sleep frame .locked) :
      Step s (s.gotoLock p (.sleep frame .released) none)
  /-- The process is marked as sleeping, and the scheduler releases its lock. -/
  | sleepSched {s : State nproc} {p : Fin nproc} {frame : Frame}
      (hpc : s.pc p = .sleep frame .released) : Step s (s.goto p (.sleep frame .asleep))
  | pipeclose {s : State nproc} {p : Fin nproc} {side : Side}
      (hpc : s.pc p = .closeAcquire side) (hlock : s.lock = none) :
      Step s { (s.setPipe (closeSide s.pi side)).startWakeup p side.other .closeTest with
        lock := some p }
  | closeFirst {s : State nproc} {p : Fin nproc} (side : Side) (hpc : s.pc p = .closeTest)
      (hopen : isOpen s.pi side) : Step s (s.gotoLock p .idle none)
  | closeLast {s : State nproc} {p : Fin nproc} (hpc : s.pc p = .closeTest)
      (hclosed : ∀ side, isOpen s.pi side = false) : Step s (s.gotoLock p .closeFree none)
  | kfree {s : State nproc} {p : Fin nproc} (hpc : s.pc p = .closeFree) :
      Step s { s.goto p .idle with freed := s.freed + 1 }

/-! ## What the ends and the page owe to each other -/

/-- Process `p` is the one that is going to free the page, once both ends are marked. -/
def State.Frees (s : State nproc) (p : Fin nproc) : Prop := (s.pc p).marked

/-- The references, the flags and the processes that are about to close an end. -/
structure Ends (s : State nproc) : Prop where
  held : ∀ p, (s.pc p).inside → s.lock = some p
  uses : ∀ p side, (s.pc p).uses = some side → 0 < s.refs side p
  opened : ∀ side, isOpen s.pi side → ¬ s.Dropped side ∨ ∃ p, s.pc p = .closeAcquire side
  closed : ∀ side, isOpen s.pi side = false →
    s.Dropped side ∧ ∀ p, s.pc p ≠ .closeAcquire side
  closer : ∀ p side, s.pc p = .closeAcquire side →
    s.Dropped side ∧ ∀ q, s.pc q = .closeAcquire side → q = p

structure Inv (s : State nproc) : Prop extends Ends s where
  early : ∀ side, isOpen s.pi side → s.freed = 0 ∧ ∀ p, s.pc p ≠ .closeFree
  late : (∀ side, isOpen s.pi side = false) →
    s.freed = 0 ∧ (∃ p, s.Frees p ∧ ∀ q, s.Frees q → q = p) ∨ s.freed = 1 ∧ ∀ p, ¬ s.Frees p

section Invariant

variable {s s' : State nproc} {p q : Fin nproc} {pc : Pc} {lock : Option (Fin nproc)}

theorem Ends.not_inside (h : Ends s) (hp : (s.pc p).inside) (hne : q ≠ p) :
    ¬ (s.pc q).inside := by
  intro hq
  have hheld := h.held p hp
  rw [h.held q hq] at hheld
  exact hne (Option.some.inj hheld)

theorem Ends.nobody_inside (h : Ends s) (hlock : s.lock = none) (p : Fin nproc) :
    ¬ (s.pc p).inside := by
  intro hp
  have hheld := h.held p hp
  simp [hlock] at hheld

/-- A step in the code of process `p` that neither opens nor closes an end. -/
theorem Ends.move (h : Ends s) (hpc : s'.pc = Function.update s.pc p pc)
    (hflags : isOpen s'.pi = isOpen s.pi) (hrefs : s'.refs = s.refs)
    (huses : ∀ side, pc.uses = some side → 0 < s.refs side p)
    (hbefore : ∀ side, s.pc p ≠ .closeAcquire side) (hafter : ∀ side, pc ≠ .closeAcquire side)
    (hlock : pc.inside → s'.lock = some p)
    (hothers : ∀ q, q ≠ p → (s.pc q).inside → s'.lock = some q) : Ends s' := by
  have hclosing : ∀ q side, s'.pc q = .closeAcquire side ↔ s.pc q = .closeAcquire side := by
    intro q side
    by_cases heq : q = p
    · subst heq
      simp [hpc, hbefore side, hafter side]
    · simp [hpc, heq]
  have hdropped : ∀ side, s'.Dropped side ↔ s.Dropped side := by
    simp [State.Dropped, hrefs]
  refine ⟨fun q hq => ?_, fun q side hq => ?_, fun side hside => ?_, fun side hside => ?_,
    fun q side hq => ?_⟩
  · by_cases heq : q = p
    · subst heq
      exact hlock (by simpa [hpc] using hq)
    · exact hothers q heq (by simpa [hpc, heq] using hq)
  · rw [hrefs]
    by_cases heq : q = p
    · subst heq
      exact huses side (by simpa [hpc] using hq)
    · exact h.uses q side (by simpa [hpc, heq] using hq)
  · rw [hflags] at hside
    simpa only [hdropped, hclosing] using h.opened side hside
  · rw [hflags] at hside
    simpa only [hdropped, hclosing, ne_eq] using h.closed side hside
  · rw [hclosing] at hq
    simpa only [hdropped, hclosing] using h.closer q side hq

/-- The same for the page, which such a step does not free. -/
theorem Inv.move (h : Inv s) (hpc : s'.pc = Function.update s.pc p pc)
    (hflags : isOpen s'.pi = isOpen s.pi) (hrefs : s'.refs = s.refs) (hfreed : s'.freed = s.freed)
    (huses : ∀ side, pc.uses = some side → 0 < s.refs side p)
    (hbefore : ∀ side, s.pc p ≠ .closeAcquire side) (hafter : ∀ side, pc ≠ .closeAcquire side)
    (hmarked : pc.marked = (s.pc p).marked ∨ ∃ side, isOpen s.pi side)
    (hfree : pc = .closeFree → ∀ side, isOpen s.pi side = false)
    (hlock : pc.inside → s'.lock = some p)
    (hothers : ∀ q, q ≠ p → (s.pc q).inside → s'.lock = some q) : Inv s' := by
  refine ⟨h.toEnds.move hpc hflags hrefs huses hbefore hafter hlock hothers,
    fun side hside => ?_, fun hside => ?_⟩
  · rw [hflags] at hside
    refine ⟨hfreed.trans (h.early side hside).1, fun q hq => ?_⟩
    by_cases heq : q = p
    · subst heq
      simp [hfree (by simpa [hpc] using hq) side] at hside
    · exact (h.early side hside).2 q (by simpa [hpc, heq] using hq)
  · rw [hflags] at hside
    have hfrees : ∀ q, s'.Frees q ↔ s.Frees q := by
      intro q
      by_cases heq : q = p
      · subst heq
        rcases hmarked with hsame | ⟨side, hopen⟩
        · simp [State.Frees, hpc, hsame]
        · simp [hside side] at hopen
      · simp [State.Frees, hpc, heq]
    simpa only [hfrees, hfreed] using h.late hside

theorem Inv.acquire (h : Inv s) (hlock : s.lock = none) {frame : Frame}
    (hpc : s.pc p = .acquire frame) : Inv (s.gotoLock p frame.resume (some p)) := by
  have huses := h.uses p frame.side (by rw [hpc]; rfl)
  refine h.move rfl rfl rfl rfl (fun side hside => ?_) (by simp [hpc]) ?_ ?_ ?_ (fun _ => rfl)
    fun q _ hq => absurd hq (h.nobody_inside hlock q)
  all_goals cases frame <;> simp_all [Frame.resume, Frame.side, Pc.uses, Pc.marked]

/-- A process that has the lock of the pipe goes on with it. -/
theorem Inv.goOn (h : Inv s) (hin : (s.pc p).inside) (hpc : s'.pc = Function.update s.pc p pc)
    (hflags : isOpen s'.pi = isOpen s.pi) (hrefs : s'.refs = s.refs) (hfreed : s'.freed = s.freed)
    (hlock : s'.lock = s.lock)
    (huses : ∀ side, pc.uses = some side → (s.pc p).uses = some side)
    (hpcIn : pc.inside) (hmarked : pc.marked = (s.pc p).marked) : Inv s' := by
  refine h.move hpc hflags hrefs hfreed (fun side hside => h.uses p side (huses side hside)) ?_ ?_
    (Or.inl hmarked) ?_ (fun _ => hlock.trans (h.held p hin)) fun q _ hq =>
      hlock.trans (h.held q hq)
  · rintro side heq
    simp [heq, Pc.inside] at hin
  · rintro side rfl
    simp [Pc.inside] at hpcIn
  · rintro rfl
    simp [Pc.inside] at hpcIn

/-- A process gives up the lock of the pipe. -/
theorem Inv.release (h : Inv s) (hin : (s.pc p).inside) (hpc : s'.pc = Function.update s.pc p pc)
    (hpi : s'.pi = s.pi) (hrefs : s'.refs = s.refs) (hfreed : s'.freed = s.freed)
    (huses : ∀ side, pc.uses = some side → (s.pc p).uses = some side)
    (hpcOut : pc.inside = false) (hclose : ∀ side, pc ≠ .closeAcquire side)
    (hmarked : pc.marked = (s.pc p).marked ∨ ∃ side, isOpen s.pi side)
    (hfree : pc = .closeFree → ∀ side, isOpen s.pi side = false) : Inv s' := by
  refine h.move hpc (by rw [hpi]) hrefs hfreed
    (fun side hside => h.uses p side (huses side hside)) ?_ hclose hmarked hfree
    (fun hpcIn => absurd hpcIn (by simp [hpcOut])) fun q hne hq =>
      absurd hq (h.not_inside hin hne)
  rintro side heq
  simp [heq, Pc.inside] at hin

/-- A step without the lock. -/
theorem Inv.outside (h : Inv s) (hpc : s'.pc = Function.update s.pc p pc) (hpi : s'.pi = s.pi)
    (hrefs : s'.refs = s.refs) (hfreed : s'.freed = s.freed) (hlock : s'.lock = s.lock)
    (huses : ∀ side, pc.uses = some side → 0 < s.refs side p)
    (hbefore : ∀ side, s.pc p ≠ .closeAcquire side) (hafter : ∀ side, pc ≠ .closeAcquire side)
    (hout : pc.inside = false) (hunmarked : (s.pc p).marked = false)
    (hunmarked' : pc.marked = false) : Inv s' := by
  refine h.move hpc (by rw [hpi]) hrefs hfreed huses hbefore hafter
    (Or.inl (hunmarked'.trans hunmarked.symm)) ?_ (fun hpcIn => absurd hpcIn (by simp [hout]))
    fun q _ hq => hlock.trans (h.held q hq)
  rintro rfl
  simp [Pc.marked] at hunmarked'

/-- A sleeping process is woken up or killed. -/
theorem Inv.roused (h : Inv s) {frame : Frame} (hpc : s.pc p = .sleep frame .asleep) :
    Inv (s.goto p (.acquire frame)) := by
  refine h.outside rfl rfl rfl rfl rfl (fun side hside => ?_) ?_ ?_ rfl ?_ rfl
  · exact h.uses p side (by rw [hpc]; exact hside)
  all_goals simp [hpc, Pc.marked]

theorem Pc.rouse_cases (pc : Pc) :
    (∃ frame, pc = .sleep frame .asleep ∧ pc.rouse = .acquire frame) ∨ pc.rouse = pc := by
  cases pc with
  | sleep frame doze =>
      cases doze with
      | asleep => exact Or.inl ⟨frame, rfl, rfl⟩
      | _ => exact Or.inr rfl
  | _ => exact Or.inr rfl

theorem Pc.wake_cases (chan : Side) (pc : Pc) :
    (∃ frame, pc = .sleep frame .asleep ∧ frame.side = chan ∧ pc.wake chan = .acquire frame) ∨
      pc.wake chan = pc := by
  cases pc with
  | sleep frame doze =>
      cases doze with
      | asleep =>
          by_cases hside : frame.side = chan
          · exact Or.inl ⟨frame, rfl, hside, by simp [Pc.wake, hside]⟩
          · exact Or.inr (by simp [Pc.wake, hside])
      | _ => exact Or.inr rfl
  | _ => exact Or.inr rfl

theorem State.goto_self (s : State nproc) (p : Fin nproc) : s.goto p (s.pc p) = s := by
  simp [State.goto]

theorem Inv.rouse (h : Inv s) (p : Fin nproc) : Inv (s.goto p (s.pc p).rouse) := by
  rcases (s.pc p).rouse_cases with ⟨frame, hpc, hrouse⟩ | hsame
  · rw [hrouse]
    exact h.roused hpc
  · rw [hsame, s.goto_self]
    exact h

theorem Inv.wake (h : Inv s) (p : Fin nproc) (chan : Side) :
    Inv (s.goto p ((s.pc p).wake chan)) := by
  rcases (s.pc p).wake_cases chan with ⟨frame, hpc, -, hwake⟩ | hsame
  · rw [hwake]
    exact h.roused hpc
  · rw [hsame, s.goto_self]
    exact h

/-! ## References -/

theorem Ends.open_of_ref (h : Ends s) {side : Side} (hdropped : ¬ s.Dropped side) :
    isOpen s.pi side := by
  by_contra hclosed
  exact hdropped (h.closed side (by simpa using hclosed)).1

theorem not_dropped {side : Side} (href : 0 < s.refs side p) : ¬ s.Dropped side := fun hdropped =>
  Nat.pos_iff_ne_zero.mp href (hdropped p)

theorem State.setRefs_other {side side' : Side} {count : ℕ} (hne : side' ≠ side) :
    (s.setRefs side p count).Dropped side' ↔ s.Dropped side' := by
  simp [State.Dropped, State.setRefs, hne]

/-- References to an end come and go, and some are left. -/
theorem Inv.setRefs (h : Inv s) {side : Side} {count : ℕ} (hbefore : ¬ s.Dropped side)
    (hafter : ¬ (s.setRefs side p count).Dropped side)
    (huses : (s.pc p).uses = some side → 0 < count) : Inv (s.setRefs side p count) := by
  have hopen := h.open_of_ref hbefore
  refine ⟨⟨h.held, fun q side' hq => ?_, fun side' hside => ?_, fun side' hside => ?_,
    fun q side' hq => ?_⟩, h.early, h.late⟩
  · have hold := h.uses q side' hq
    by_cases hs : side' = side
    · subst hs
      by_cases heq : q = p
      · subst heq
        simpa [State.setRefs] using huses hq
      · simpa [State.setRefs, heq] using hold
    · simpa [State.setRefs, hs] using hold
  · by_cases hs : side' = side
    · exact Or.inl (hs ▸ hafter)
    · rw [State.setRefs_other hs]
      exact h.opened side' hside
  · have hs : side' ≠ side := by
      rintro rfl
      exact absurd hopen (by simpa [State.setRefs] using hside)
    rw [State.setRefs_other hs]
    exact h.closed side' hside
  · have hs : side' ≠ side := by
      rintro rfl
      exact hbefore (h.closer q side' hq).1
    rw [State.setRefs_other hs]
    exact h.closer q side' hq

/-- The process that drops the last reference is going to close the end. -/
theorem Inv.dropLast (h : Inv s) {side : Side} {count : ℕ} (hpc : s.pc p = .idle)
    (href : 0 < s.refs side p) (hlast : (s.setRefs side p count).Dropped side) :
    Inv ((s.setRefs side p count).goto p (.closeAcquire side)) := by
  have hopen := h.open_of_ref (not_dropped href)
  have hnone : ∀ q, s.pc q ≠ .closeAcquire side := fun q hq =>
    not_dropped href (h.closer q side hq).1
  have hpcs : ∀ q, q ≠ p →
      ((s.setRefs side p count).goto p (.closeAcquire side)).pc q = s.pc q := fun q hne => by
    simp [State.goto, State.setRefs, hne]
  have hpcp : ((s.setRefs side p count).goto p (.closeAcquire side)).pc p = .closeAcquire side := by
    simp [State.goto]
  have hclosing : ∀ q side', side' ≠ side →
      (((s.setRefs side p count).goto p (.closeAcquire side)).pc q = .closeAcquire side' ↔
        s.pc q = .closeAcquire side') := by
    intro q side' hs
    by_cases heq : q = p
    · subst heq
      simp [hpcp, hpc, Ne.symm hs]
    · rw [hpcs q heq]
  have hunique : ∀ q, ((s.setRefs side p count).goto p (.closeAcquire side)).pc q =
      .closeAcquire side → q = p := by
    intro q hq
    by_contra hne
    rw [hpcs q hne] at hq
    exact hnone q hq
  refine ⟨⟨fun q hq => ?_, fun q side' hq => ?_, fun side' hside => ?_, fun side' hside => ?_,
    fun q side' hq => ?_⟩, fun side' hside => ?_, fun hside => ?_⟩
  · by_cases heq : q = p
    · subst heq
      simp [hpcp, Pc.inside] at hq
    · exact h.held q (by rwa [hpcs q heq] at hq)
  · by_cases heq : q = p
    · subst heq
      simp [hpcp, Pc.uses] at hq
    · have hold := h.uses q side' (by rwa [hpcs q heq] at hq)
      by_cases hs : side' = side
      · subst hs
        simpa [State.goto, State.setRefs, heq] using hold
      · simpa [State.goto, State.setRefs, hs] using hold
  · by_cases hs : side' = side
    · subst hs
      exact Or.inr ⟨p, hpcp⟩
    · refine (h.opened side' hside).imp (mt (State.setRefs_other hs).mp) ?_
      rintro ⟨q, hq⟩
      exact ⟨q, (hclosing q side' hs).mpr hq⟩
  · have hs : side' ≠ side := by
      rintro rfl
      exact absurd hopen (by simpa [State.goto, State.setRefs] using hside)
    obtain ⟨hdropped, hnot⟩ := h.closed side' hside
    exact ⟨(State.setRefs_other hs).mpr hdropped, fun q => mt (hclosing q side' hs).mp (hnot q)⟩
  · by_cases hs : side' = side
    · subst hs
      obtain rfl := hunique q hq
      exact ⟨hlast, hunique⟩
    · obtain ⟨hdropped, hone⟩ := h.closer q side' ((hclosing q side' hs).mp hq)
      exact ⟨(State.setRefs_other hs).mpr hdropped,
        fun r hr => hone r ((hclosing r side' hs).mp hr)⟩
  · obtain ⟨hfreed, hnot⟩ := h.early side' hside
    refine ⟨hfreed, fun q hq => ?_⟩
    by_cases heq : q = p
    · subst heq
      simp [hpcp] at hq
    · exact hnot q (by rwa [hpcs q heq] at hq)
  · exact absurd hopen (by simpa [State.goto, State.setRefs] using hside side)

/-! ## `pipeclose` -/

theorem isOpen_closeSide (pi : PipeData) (side side' : Side) :
    isOpen (closeSide pi side) side' = (decide (side' ≠ side) && isOpen pi side') := by
  cases side <;> cases side' <;> rfl

/-- An end is marked as closed, under the lock. -/
theorem Inv.mark (h : Inv s) {side : Side} (hpc : s.pc p = .closeAcquire side)
    (hlock : s.lock = none) {chan : Side} (hs' : s'.pc = Function.update s.pc p
      (.wakeup chan 0 .closeTest)) (hpi : s'.pi = closeSide s.pi side) (hrefs : s'.refs = s.refs)
    (hfreed : s'.freed = s.freed) (hlock' : s'.lock = some p) : Inv s' := by
  obtain ⟨hdropped, hone⟩ := h.closer p side hpc
  have hopen : isOpen s.pi side := by
    by_contra hclosed
    exact (h.closed side (by simpa using hclosed)).2 p hpc
  have hpcp : s'.pc p = .wakeup chan 0 .closeTest := by simp [hs']
  have hpcs : ∀ q, q ≠ p → s'.pc q = s.pc q := fun q hne => by simp [hs', hne]
  have hdrop : ∀ side', s'.Dropped side' ↔ s.Dropped side' := by simp [State.Dropped, hrefs]
  have hflag : ∀ side', isOpen s'.pi side' = (decide (side' ≠ side) && isOpen s.pi side') := by
    simp [hpi, isOpen_closeSide]
  have hclosing : ∀ q side', side' ≠ side →
      (s'.pc q = .closeAcquire side' ↔ s.pc q = .closeAcquire side') := by
    intro q side' hs
    by_cases heq : q = p
    · subst heq
      simp [hpcp, hpc, Ne.symm hs]
    · rw [hpcs q heq]
  have hnone : ∀ q, s'.pc q ≠ .closeAcquire side := by
    intro q hq
    by_cases heq : q = p
    · subst heq
      simp [hpcp] at hq
    · exact heq (hone q (by rwa [hpcs q heq] at hq))
  refine ⟨⟨fun q hq => ?_, fun q side' hq => ?_, fun side' hside => ?_, fun side' hside => ?_,
    fun q side' hq => ?_⟩, fun side' hside => ?_, fun hside => Or.inl ⟨?_, p, ?_, ?_⟩⟩
  · by_cases heq : q = p
    · rw [heq, hlock']
    · exact absurd (by rwa [hpcs q heq] at hq) (h.nobody_inside hlock q)
  · rw [hrefs]
    by_cases heq : q = p
    · subst heq
      simp [hpcp, Pc.uses] at hq
    · exact h.uses q side' (by rwa [hpcs q heq] at hq)
  · rw [hflag, Bool.and_eq_true, decide_eq_true_iff] at hside
    simpa only [hdrop, hclosing _ side' hside.1] using h.opened side' hside.2
  · by_cases hs : side' = side
    · subst hs
      exact ⟨(hdrop side').mpr hdropped, hnone⟩
    · have hold := h.closed side' (by simpa [hflag, hs] using hside)
      simpa only [hdrop, hclosing _ side' hs, ne_eq] using hold
  · have hs : side' ≠ side := by
      rintro rfl
      exact hnone q hq
    simp only [hclosing _ side' hs] at hq ⊢
    simpa only [hdrop] using h.closer q side' hq
  · obtain ⟨hzero, hnot⟩ := h.early side hopen
    refine ⟨hfreed.trans hzero, fun q hq => ?_⟩
    by_cases heq : q = p
    · subst heq
      simp [hpcp] at hq
    · exact hnot q (by rwa [hpcs q heq] at hq)
  · exact hfreed.trans (h.early side hopen).1
  · simp [State.Frees, hpcp, Pc.marked]
  · -- Whoever else has marked an end and is not done would have the lock.
    intro q hq
    by_contra hne
    have hmarked : (s.pc q).marked := by simpa [State.Frees, hpcs q hne] using hq
    have hout := h.nobody_inside hlock q
    have hnot := (h.early side hopen).2 q
    cases hpcq : s.pc q <;> simp_all [Pc.marked, Pc.inside]

theorem Inv.kfree (h : Inv s) (hpc : s.pc p = .closeFree) :
    Inv { s.goto p .idle with freed := s.freed + 1 } := by
  have hclosed : ∀ side, isOpen s.pi side = false := by
    intro side
    by_contra hopen
    exact (h.early side (by simpa using hopen)).2 p hpc
  have hp : s.Frees p := by
    rw [State.Frees, hpc]
    rfl
  obtain ⟨hzero, hone⟩ : s.freed = 0 ∧ ∀ q, s.Frees q → q = p := by
    rcases h.late hclosed with ⟨hzero, r, -, hone⟩ | ⟨-, hnone⟩
    · exact ⟨hzero, fun q hq => (hone q hq).trans (hone p hp).symm⟩
    · exact absurd hp (hnone p)
  refine ⟨h.toEnds.move rfl rfl rfl (by simp [Pc.uses]) (by simp [hpc]) (by simp)
    (by simp [Pc.inside]) fun q _ hq => h.held q hq, fun side hside => ?_, fun _ => Or.inr ⟨?_, ?_⟩⟩
  · exact absurd hside (by simp [State.goto, hclosed side])
  · rw [hzero]
  · intro q hq
    by_cases heq : q = p
    · subst heq
      simp [State.Frees, State.goto, Pc.marked] at hq
    · exact heq (hone q (by simpa [State.Frees, State.goto, heq] using hq))

/-! ## Runs -/

theorem inv_pipealloc (page : ℕ → Byte) (p : Fin nproc) (killed : Fin nproc → Bool) :
    Inv (State.pipealloc page p killed) := by
  refine ⟨⟨?_, ?_, fun side _ => Or.inl fun hdropped => ?_, fun side hside => ?_, ?_⟩, ?_,
    fun hside => ?_⟩
  · simp [State.pipealloc, Pc.inside]
  · simp [State.pipealloc, Pc.uses]
  · have hp := hdropped p
    simp [State.pipealloc] at hp
  · cases side <;> simp [State.pipealloc, isOpen] at hside
  · simp [State.pipealloc]
  · simp [State.pipealloc]
  · have hread := hside .read
    simp [State.pipealloc, isOpen] at hread

theorem Inv.step (h : Inv s) (hstep : Step s s') : Inv s' := by
  cases hstep with
  | filedup side q hpc href =>
      refine h.setRefs (not_dropped href) ?_ fun _ => Nat.succ_pos _
      exact not_dropped (p := q) (by simp [State.setRefs])
  | fileclose side hpc href hmore =>
      exact h.setRefs (not_dropped href) hmore (by simp [hpc, Pc.uses])
  | filecloseLast side hpc href hlast => exact h.dropLast hpc href hlast
  | @kill p hlock =>
      have hrouse := h.rouse p
      exact ⟨⟨hrouse.held, hrouse.uses, hrouse.opened, hrouse.closed, hrouse.closer⟩,
        hrouse.early, hrouse.late⟩
  | freeproc hpc hrefs =>
      exact ⟨⟨h.held, h.uses, h.opened, h.closed, h.closer⟩, h.early, h.late⟩
  | pipewrite n hpc href =>
      exact h.outside rfl rfl rfl rfl rfl (by simp [Pc.uses, Frame.side, href]) (by simp [hpc])
        (by simp) rfl (by rw [hpc]; rfl) rfl
  | piperead n hpc href =>
      exact h.outside rfl rfl rfl rfl rfl (by simp [Pc.uses, Frame.side, href]) (by simp [hpc])
        (by simp) rfl (by rw [hpc]; rfl) rfl
  | acquire hpc hlock => exact h.acquire hlock hpc
  | writeDone hpc hi =>
      exact h.goOn (by rw [hpc]; rfl) rfl rfl rfl rfl rfl (by rw [hpc]; simp [Pc.uses, Side.other])
        rfl (by rw [hpc]; rfl)
  | writeFail hpc hi hfull hfail =>
      exact h.release (by rw [hpc]; rfl) rfl rfl rfl rfl (by simp [Pc.uses]) rfl (by simp)
        (Or.inl (by rw [hpc]; rfl)) (by simp)
  | writeFull hpc hi hfull hopen hkilled =>
      exact h.goOn (by rw [hpc]; rfl) rfl rfl rfl rfl rfl (by rw [hpc]; simp [Pc.uses, Side.other])
        rfl (by rw [hpc]; rfl)
  | writeFault hpc hi hroom =>
      exact h.goOn (by rw [hpc]; rfl) rfl rfl rfl rfl rfl (by rw [hpc]; simp [Pc.uses, Side.other])
        rfl (by rw [hpc]; rfl)
  | writeByte hpc hi hroom ch =>
      refine h.goOn (by rw [hpc]; rfl) rfl ?_ rfl rfl rfl (by rw [hpc]; simp [Pc.uses]) rfl
        (by rw [hpc]; rfl)
      funext side
      cases side <;> rfl
  | readFail hpc hempty hopen hkilled =>
      exact h.release (by rw [hpc]; rfl) rfl rfl rfl rfl (by simp [Pc.uses]) rfl (by simp)
        (Or.inl (by rw [hpc]; rfl)) (by simp)
  | readSleep hpc hempty hopen hkilled =>
      exact h.goOn (by rw [hpc]; rfl) rfl rfl rfl rfl rfl (by rw [hpc]; simp [Pc.uses, Frame.side])
        rfl (by rw [hpc]; rfl)
  | readStart hpc hready =>
      exact h.goOn (by rw [hpc]; rfl) rfl rfl rfl rfl rfl (by rw [hpc]; simp [Pc.uses]) rfl
        (by rw [hpc]; rfl)
  | readDone hpc hend =>
      exact h.goOn (by rw [hpc]; rfl) rfl rfl rfl rfl rfl (by rw [hpc]; simp [Pc.uses, Side.other])
        rfl (by rw [hpc]; rfl)
  | readByte hpc hi hsome =>
      refine h.goOn (by rw [hpc]; rfl) rfl ?_ rfl rfl rfl (by rw [hpc]; simp [Pc.uses]) rfl
        (by rw [hpc]; rfl)
      funext side
      cases side <;> rfl
  | readFault hpc hi hsome =>
      refine h.goOn (by rw [hpc]; rfl) rfl ?_ rfl rfl rfl
        (by rw [hpc]; simp [Pc.uses, Side.other]) rfl (by rw [hpc]; rfl)
      funext side
      cases side <;> rfl
  | @wakeupSlot p chan next q hpc hlock =>
      have hwoken := h.wake q chan
      have hpc' : (s.goto q ((s.pc q).wake chan)).pc p = .wakeup chan q next := by
        by_cases heq : p = q
        · subst heq
          simp [State.goto, hpc, Pc.wake]
        · simpa [State.goto, heq] using hpc
      refine hwoken.goOn (by rw [hpc']; rfl) rfl rfl rfl rfl rfl ?_ rfl ?_
      · rw [hpc']
        cases next <;> simp [Pc.uses]
      · rw [hpc']
        cases next <;> rfl
  | wakeupSleep hpc =>
      exact h.goOn (by rw [hpc]; rfl) rfl rfl rfl rfl rfl
        (by rw [hpc]; simp [Pc.uses, Frame.side, Side.other]) rfl (by rw [hpc]; rfl)
  | wakeupDone hpc =>
      exact h.release (by rw [hpc]; rfl) rfl rfl rfl rfl (by simp [Pc.uses]) rfl (by simp)
        (Or.inl (by rw [hpc]; rfl)) (by simp)
  | wakeupClose hpc =>
      exact h.goOn (by rw [hpc]; rfl) rfl rfl rfl rfl rfl (by simp [Pc.uses]) rfl
        (by rw [hpc]; rfl)
  | sleepRelease hpc =>
      exact h.release (by rw [hpc]; rfl) rfl rfl rfl rfl (by rw [hpc]; simp [Pc.uses]) rfl
        (by simp) (Or.inl (by rw [hpc]; rfl)) (by simp)
  | @sleepSched p frame hpc =>
      refine h.outside rfl rfl rfl rfl rfl (fun side hside => ?_) (by simp [hpc]) (by simp) rfl
        (by rw [hpc]; rfl) rfl
      exact h.uses p side (by rw [hpc]; exact hside)
  | pipeclose hpc hlock => exact h.mark hpc hlock rfl rfl rfl rfl rfl
  | closeFirst side hpc hopen =>
      exact h.release (by rw [hpc]; rfl) rfl rfl rfl rfl (by simp [Pc.uses]) rfl (by simp)
        (Or.inr ⟨side, hopen⟩) (by simp)
  | closeLast hpc hclosed =>
      exact h.release (by rw [hpc]; rfl) rfl rfl rfl rfl (by simp [Pc.uses]) rfl (by simp)
        (Or.inl (by rw [hpc]; rfl)) fun _ => hclosed
  | kfree hpc => exact h.kfree hpc

theorem reachable_inv {page : ℕ → Byte} {p : Fin nproc} {killed : Fin nproc → Bool}
    (hreach : Reachable Step (State.pipealloc page p killed) s) : Inv s :=
  reachable_invariant Inv (inv_pipealloc page p killed) (fun _ _ hinv hstep => hinv.step hstep)
    hreach

theorem Ends.busy (h : Ends s) (hbusy : s.pc p ≠ .idle) (hmarked : (s.pc p).marked = false) :
    ∃ side, isOpen s.pi side := by
  have hof : ∀ side, (s.pc p).uses = some side → isOpen s.pi side := fun side hside =>
    h.open_of_ref (not_dropped (h.uses p side hside))
  cases hpc : s.pc p with
  | idle => exact absurd hpc hbusy
  | closeAcquire side =>
      refine ⟨side, ?_⟩
      by_contra hclosed
      exact (h.closed side (by simpa using hclosed)).2 p hpc
  | wakeup chan q next =>
      cases next with
      | closeTest => simp [hpc, Pc.marked] at hmarked
      | _ => exact ⟨chan.other, hof chan.other (by rw [hpc]; rfl)⟩
  | closeTest => simp [hpc, Pc.marked] at hmarked
  | closeFree => simp [hpc, Pc.marked] at hmarked
  | acquire frame => exact ⟨frame.side, hof frame.side (by rw [hpc]; rfl)⟩
  | sleep frame doze => exact ⟨frame.side, hof frame.side (by rw [hpc]; rfl)⟩
  | writeLoop n i => exact ⟨.write, hof .write (by rw [hpc]; rfl)⟩
  | readWait n => exact ⟨.read, hof .read (by rw [hpc]; rfl)⟩
  | readLoop n i => exact ⟨.read, hof .read (by rw [hpc]; rfl)⟩

/-- **The page of a pipe is freed once, when nobody can use it any more.**  Whatever the
processes that share the pipe do, its page is given to `kfree` at most once; when it has been, no
process has a reference to the pipe or is in a call on it; and when the last references are gone
and the calls are over, it has been. -/
theorem pipe_freed_once {page : ℕ → Byte} {p : Fin nproc} {killed : Fin nproc → Bool}
    (hreach : Reachable Step (State.pipealloc page p killed) s) :
    s.freed ≤ 1 ∧
      (s.freed = 1 ↔ (∀ side, s.Dropped side) ∧ ∀ q, s.pc q = .idle) := by
  have hinv := reachable_inv hreach
  have hclosed_of : s.freed ≠ 0 → ∀ side, isOpen s.pi side = false := by
    intro hfreed side
    by_contra hopen
    exact hfreed (hinv.early side (by simpa using hopen)).1
  refine ⟨?_, fun hfreed => ?_, fun ⟨hdropped, hidle⟩ => ?_⟩
  · by_contra hmany
    rcases hinv.late (hclosed_of (by omega)) with ⟨hzero, -⟩ | ⟨hone, -⟩ <;> omega
  · have hclosed := hclosed_of (by omega)
    refine ⟨fun side => (hinv.closed side (hclosed side)).1, fun q => ?_⟩
    have hnone : ∀ r, ¬ s.Frees r := by
      rcases hinv.late hclosed with ⟨hzero, -⟩ | ⟨-, hnone⟩
      · omega
      · exact hnone
    by_contra hbusy
    obtain ⟨side, hopen⟩ := hinv.toEnds.busy hbusy (by simpa [State.Frees] using hnone q)
    simp [hclosed side] at hopen
  · have hclosed : ∀ side, isOpen s.pi side = false := by
      intro side
      by_contra hopen
      rcases hinv.opened side (by simpa using hopen) with hsome | ⟨q, hq⟩
      · exact hsome (hdropped side)
      · simp [hidle q] at hq
    rcases hinv.late hclosed with ⟨-, q, hq, -⟩ | ⟨hone, -⟩
    · simp [State.Frees, hidle q, Pc.marked] at hq
    · exact hone

end Invariant

section Example

/-- Process 0 makes a pipe and shares its write end with process 1; both close what they have. -/
theorem exists_freed : ∃ s : State 2,
    Reachable Step (State.pipealloc (fun _ => 0) 0 fun _ => false) s ∧ s.freed = 1 := by
  have hreach : Reachable Step (State.pipealloc (fun _ => 0) 0 fun _ => false : State 2) _ := .refl
  replace hreach := hreach.tail (.filedup (p := 0) .write 1 rfl (by decide))
  replace hreach := hreach.tail (.fileclose (p := 0) .write rfl (by decide) (by decide))
  replace hreach := hreach.tail (.filecloseLast (p := 1) .write rfl (by decide) (by decide))
  replace hreach := hreach.tail (.pipeclose (p := 1) rfl rfl)
  replace hreach := hreach.tail (.wakeupSlot (p := 1) 0 rfl (by decide))
  replace hreach := hreach.tail (.wakeupSlot (p := 1) 1 rfl (by decide))
  replace hreach := hreach.tail (.wakeupClose (p := 1) rfl)
  replace hreach := hreach.tail (.closeFirst (p := 1) .read rfl rfl)
  replace hreach := hreach.tail (.filecloseLast (p := 0) .read rfl (by decide) (by decide))
  replace hreach := hreach.tail (.pipeclose (p := 0) rfl rfl)
  replace hreach := hreach.tail (.wakeupSlot (p := 0) 0 rfl (by decide))
  replace hreach := hreach.tail (.wakeupSlot (p := 0) 1 rfl (by decide))
  replace hreach := hreach.tail (.wakeupClose (p := 0) rfl)
  replace hreach := hreach.tail (.closeLast (p := 0) rfl (by rintro (_ | _) <;> rfl))
  replace hreach := hreach.tail (.kfree (p := 0) rfl)
  exact ⟨_, hreach, rfl⟩

theorem pipe_freed_once_shared : ∃ s : State 2,
    Reachable Step (State.pipealloc (fun _ => 0) 0 fun _ => false) s ∧
      ∀ q, s.pc q = .idle := by
  obtain ⟨s, hreach, hfreed⟩ := exists_freed
  exact ⟨s, hreach, ((pipe_freed_once hreach).2.mp hfreed).2⟩

end Example

end OperateSystem.Pipe.Closing

import Mathlib.Logic.Function.Basic
import Mathlib.Tactic.Simps.Basic
import OperateSystem.Vm.Proc

/-!
# Exiting and waiting

`wait` keeps the lock of the caller from the start of its search of the table to the end of
`sleep`, and `exit` takes the lock of the parent before it becomes a zombie.  In between,
`exit` lets go of its own lock, `reparent` and `wait` read `parent` fields without a lock,
and the parent may exit too.

A step is one acquire or release of a process lock together with the straight-line code
next to it, a read of another `parent` field, or one context switch.  The CPUs do not
matter here: a process is on some CPU, or on its way out with its lock held until
`scheduler` releases it, or off.  The code that
holds one process lock at a time and only wakes or marks a process (`wakeup`, `kill`, and
`scheduler` at a slot that it passes by) is the work of somebody else, whose steps may come
at any time.
-/

namespace OperateSystem.Waiting

open OperateSystem.Vm

variable {nproc : ℕ}

/-- What `p->chan` may point to: a process, as in `wait`, or something else. -/
inductive Chan (nproc : ℕ)
  | proc (p : Fin nproc)
  | other
  deriving DecidableEq

/-- Where the kernel thread of a process stands, or will go on when it is switched to. -/
inductive Pc (nproc : ℕ)
  | absent
  | user
  /-- Behind `sched` in `yield`, or in `forkret`. -/
  | resumed (next : Pc nproc)
  | yieldLocked (next : Pc nproc)
  | sleepLocked
  /-- Behind `sched` in `sleep`. -/
  | slept
  | exitInit
  | exitReady
  | exitSelf
  | exitParent (originalParent : Fin nproc)
  | exitParentLocked (originalParent : Fin nproc)
  /-- The loop of `reparent` at slot number `pp`. -/
  | exitReparent (originalParent : Fin nproc) (pp : ℕ)
  /-- A child has been found, and its lock is not taken yet. -/
  | exitFound (originalParent pp : Fin nproc)
  | exitChild (originalParent pp : Fin nproc)
  | exitZombie (originalParent : Fin nproc)
  | exited
  /-- The loop of `wait` at slot number `np`. -/
  | waitScan (np : ℕ) (havekids : Bool)
  | waitFound (np : Fin nproc)
  | waitChild (np : Fin nproc)
  | waitRelease
  /-- Behind `sched` in the `sleep` of `wait`. -/
  | waitSlept
  /-- The loop of `allocproc` at slot number `np`. -/
  | forkScan (np : ℕ)
  | forkTest (np : Fin nproc)
  | forkRelease (np : Fin nproc)

/-- Whether a process is on a CPU, has called `sched`, or is off. -/
inductive Run
  | on
  | leaving
  | off
  deriving DecidableEq

/-- Who holds a process lock. -/
inductive Agent (nproc : ℕ)
  | proc (p : Fin nproc)
  | other
  deriving DecidableEq

structure State (nproc : ℕ) where
  state : Fin nproc → ProcState
  parent : Fin nproc → Option (Fin nproc)
  chan : Fin nproc → Option (Chan nproc)
  killed : Fin nproc → Bool
  lock : Fin nproc → Option (Agent nproc)
  pc : Fin nproc → Pc nproc
  run : Fin nproc → Run

namespace State

@[simps]
def goto (s : State nproc) (p : Fin nproc) (pc : Pc nproc) : State nproc :=
  { s with pc := Function.update s.pc p pc }

@[simps]
def setRun (s : State nproc) (p : Fin nproc) (run : Run) : State nproc :=
  { s with run := Function.update s.run p run }

@[simps]
def setLock (s : State nproc) (q : Fin nproc) (holder : Option (Agent nproc)) : State nproc :=
  { s with lock := Function.update s.lock q holder }

@[simps]
def setState (s : State nproc) (p : Fin nproc) (state : ProcState) : State nproc :=
  { s with state := Function.update s.state p state }

@[simps]
def setParent (s : State nproc) (p : Fin nproc) (parent : Option (Fin nproc)) : State nproc :=
  { s with parent := Function.update s.parent p parent }

@[simps]
def setChan (s : State nproc) (p : Fin nproc) (chan : Option (Chan nproc)) : State nproc :=
  { s with chan := Function.update s.chan p chan }

@[simps]
def kill (s : State nproc) (p : Fin nproc) : State nproc :=
  { s with killed := Function.update s.killed p true }

/-- `wakeup1(p)`. -/
def wakeup1 (s : State nproc) (p : Fin nproc) : State nproc :=
  if s.chan p = some (.proc p) ∧ s.state p = .sleeping then s.setState p .runnable else s

/-- `freeproc(p)`; nothing is left of the kernel thread. -/
@[simps]
def freeproc (s : State nproc) (p : Fin nproc) : State nproc :=
  { s with
    state := Function.update s.state p .unused
    parent := Function.update s.parent p none
    chan := Function.update s.chan p none
    killed := Function.update s.killed p false
    pc := Function.update s.pc p .absent }

/-- `np->parent = p; ... np->state = RUNNABLE;` -/
@[simps]
def create (s : State nproc) (np p : Fin nproc) : State nproc :=
  { s with
    state := Function.update s.state np .runnable
    parent := Function.update s.parent np (some p)
    pc := Function.update s.pc np (.resumed .user) }

/-- After `userinit`. -/
@[simps]
def boot (initproc : Fin nproc) : State nproc where
  state p := if p = initproc then .runnable else .unused
  parent _ := none
  chan _ := none
  killed _ := false
  lock _ := none
  pc p := if p = initproc then .resumed .user else .absent
  run _ := .off

end State

/-- The process holds no process lock, so a timer interrupt may call `yield`. -/
def Pc.interruptible : Pc nproc → Prop
  | .user | .exitReady | .exitParent _ | .forkScan _ => True
  | _ => False

section Code

variable (initproc : Fin nproc) (s : State nproc) (p : Fin nproc)

/-- The calls of `acquire` by process `p`, with the lock that is taken. -/
inductive Acquires : Pc nproc → Fin nproc → Pc nproc → Prop
  | yield {next} (h : next.interruptible) : Acquires next p (.yieldLocked next)
  | sleep : Acquires .user p .sleepLocked
  | exit (h : p ≠ initproc) : Acquires .user initproc .exitInit
  | exitSelf : Acquires .exitReady p .exitSelf
  | exitParent {originalParent} : Acquires (.exitParent originalParent) originalParent
      (.exitParentLocked originalParent)
  | exitBoth {originalParent} : Acquires (.exitParentLocked originalParent) p
      (.exitReparent originalParent 0)
  | reparent {originalParent pp} : Acquires (.exitFound originalParent pp) pp
      (.exitChild originalParent pp)
  | wait : Acquires .user p (.waitScan 0 false)
  | waitChild {np} : Acquires (.waitFound np) np (.waitChild np)
  | allocproc {np : Fin nproc} : Acquires (.forkScan np) np (.forkTest np)

/-- The calls of `release` by process `p` next to which nothing else changes. -/
inductive Releases : Pc nproc → Fin nproc → Pc nproc → Prop
  | resumed {next} : Releases (.resumed next) p next
  | exitSelf {originalParent} (h : s.parent p = some originalParent) :
      Releases .exitSelf p (.exitParent originalParent)
  | exitZombie {originalParent} : Releases (.exitZombie originalParent) originalParent .exited
  | waitChild {np : Fin nproc} (h : s.state np ≠ .zombie) :
      Releases (.waitChild np) np (.waitScan (np + 1) true)
  /-- `copyout` has failed. -/
  | waitFail {np : Fin nproc} (h : s.state np = .zombie) : Releases (.waitChild np) np .waitRelease
  | waitRelease : Releases .waitRelease p .user
  /-- No children, or killed. -/
  | waitNone {havekids : Bool} (h : ¬ havekids ∨ s.killed p) :
      Releases (.waitScan nproc havekids) p .user
  | allocproc {np : Fin nproc} (h : s.state np ≠ .unused) :
      Releases (.forkTest np) np (.forkScan (np + 1))
  /-- There is no memory; `freeproc` has left the slot as it was. -/
  | noMemory {np : Fin nproc} (h : s.state np = .unused) : Releases (.forkTest np) np .user
  | fork {np : Fin nproc} : Releases (.forkRelease np) np .user

/-- Steps between two calls that only move the program counter.  The loops of `reparent` and
`wait` read the `parent` field of a slot without its lock. -/
inductive Moves : Pc nproc → Pc nproc → Prop
  | reparent {originalParent} {pp : Fin nproc} (h : s.parent pp ≠ some p) :
      Moves (.exitReparent originalParent pp) (.exitReparent originalParent (pp + 1))
  | reparentChild {originalParent} {pp : Fin nproc} (h : s.parent pp = some p) :
      Moves (.exitReparent originalParent pp) (.exitFound originalParent pp)
  | wait {np : Fin nproc} {havekids} (h : s.parent np ≠ some p) :
      Moves (.waitScan np havekids) (.waitScan (np + 1) havekids)
  | waitChild {np : Fin nproc} {havekids} (h : s.parent np = some p) :
      Moves (.waitScan np havekids) (.waitFound np)
  | fork : Moves .user (.forkScan 0)
  /-- No slot is unused. -/
  | forkFull : Moves (.forkScan nproc) .user

end Code

inductive Step (initproc : Fin nproc) : State nproc → State nproc → Prop
  /-- Somebody else takes the lock of slot `q`. -/
  | otherAcquire {s q} (hfree : s.lock q = none) : Step initproc s (s.setLock q (some .other))
  | otherWake {s q} (hlock : s.lock q = some .other) (hstate : s.state q = .sleeping) :
      Step initproc s (s.setState q .runnable)
  | otherKill {s q} (hlock : s.lock q = some .other) : Step initproc s (s.kill q)
  | otherRelease {s q} (hlock : s.lock q = some .other) : Step initproc s (s.setLock q none)
  /-- `scheduler` takes the lock and switches; the process goes on with the lock. -/
  | switchTo {s p} (hrun : s.run p = .off) (hfree : s.lock p = none)
      (hstate : s.state p = .runnable) :
      Step initproc s (((s.setState p .running).setLock p (some (.proc p))).setRun p .on)
  /-- `scheduler` is back from the process and releases its lock. -/
  | switchFrom {s p} (hrun : s.run p = .leaving) :
      Step initproc s ((s.setLock p none).setRun p .off)
  | acquire {s p q pc} (hrun : s.run p = .on) (hcode : Acquires initproc p (s.pc p) q pc)
      (hfree : s.lock q = none) : Step initproc s ((s.setLock q (some (.proc p))).goto p pc)
  | release {s p q pc} (hrun : s.run p = .on) (hcode : Releases s p (s.pc p) q pc) :
      Step initproc s ((s.setLock q none).goto p pc)
  | move {s p pc} (hrun : s.run p = .on) (hcode : Moves s p (s.pc p) pc) :
      Step initproc s (s.goto p pc)
  | yield {s p next} (hrun : s.run p = .on) (hpc : s.pc p = .yieldLocked next) :
      Step initproc s (((s.setState p .runnable).goto p (.resumed next)).setRun p .leaving)
  /-- `sleep` on anything but a process. -/
  | sleep {s p} (hrun : s.run p = .on) (hpc : s.pc p = .sleepLocked) :
      Step initproc s
        ((((s.setChan p (some .other)).setState p .sleeping).goto p .slept).setRun p .leaving)
  | slept {s p} (hrun : s.run p = .on) (hpc : s.pc p = .slept) :
      Step initproc s (((s.setChan p none).setLock p none).goto p .user)
  /-- `wakeup1(initproc); release(&initproc->lock);` -/
  | exitInit {s p} (hrun : s.run p = .on) (hpc : s.pc p = .exitInit) :
      Step initproc s (((s.wakeup1 initproc).setLock initproc none).goto p .exitReady)
  /-- `pp->parent = initproc; release(&pp->lock);` -/
  | reparent {s p originalParent pp} (hrun : s.run p = .on)
      (hpc : s.pc p = .exitChild originalParent pp) :
      Step initproc s (((s.setParent pp (some initproc)).setLock pp none).goto p
        (.exitReparent originalParent (pp + 1)))
  /-- `wakeup1(original_parent); p->xstate = status; p->state = ZOMBIE;` -/
  | zombie {s p originalParent} (hrun : s.run p = .on)
      (hpc : s.pc p = .exitReparent originalParent nproc) :
      Step initproc s (((s.wakeup1 originalParent).setState p .zombie).goto p
        (.exitZombie originalParent))
  | exited {s p} (hrun : s.run p = .on) (hpc : s.pc p = .exited) :
      Step initproc s (s.setRun p .leaving)
  /-- `freeproc(np); release(&np->lock);` -/
  | waitFree {s p np} (hrun : s.run p = .on) (hpc : s.pc p = .waitChild np)
      (hstate : s.state np = .zombie) :
      Step initproc s (((s.freeproc np).setLock np none).goto p .waitRelease)
  /-- `sleep(p, &p->lock)`. -/
  | waitSleep {s p} {havekids : Bool} (hrun : s.run p = .on)
      (hpc : s.pc p = .waitScan nproc havekids)
      (hkids : havekids) (hkilled : ¬ s.killed p) :
      Step initproc s ((((s.setChan p (some (.proc p))).setState p .sleeping).goto p
        .waitSlept).setRun p .leaving)
  | waitSlept {s p} (hrun : s.run p = .on) (hpc : s.pc p = .waitSlept) :
      Step initproc s ((s.setChan p none).goto p (.waitScan 0 false))
  | fork {s p np} (hrun : s.run p = .on) (hpc : s.pc p = .forkTest np)
      (hstate : s.state np = .unused) :
      Step initproc s ((s.create np p).goto p (.forkRelease np))

end OperateSystem.Waiting

import Mathlib.Data.Set.Basic
import Mathlib.Logic.Function.Basic
import Mathlib.Tactic.Simps.Basic
import OperateSystem.Vm.Proc

/-!
# CPUs and processes

Any number of CPUs run `scheduler`, and the processes they switch to call `yield`,
`sleep`, `wakeup`, `exit`, `wait` and `fork`.  A step is one acquire or release of a
process lock together with the straight-line code next to it, one context switch, one
call of `kvminithart`, or one call of `freeproc` or `kvminit_proc` under the lock of the
slot.

Channels are not modelled: a `wakeup` may wake any sleeping process or none.  A lock is
recorded with the CPU that holds it, as `struct spinlock` does.
-/

namespace OperateSystem.Sched

open OperateSystem.Vm

variable {Cpu Slot : Type*} [DecidableEq Cpu] [DecidableEq Slot]

/-- Where the kernel thread of a process stands, or will go on when it is switched to. -/
inductive Pc (Slot : Type*)
  | user
  /-- Just switched to: in `forkret`, or behind `sched` in `yield` or `sleep`. -/
  | resumed (next : Pc Slot)
  | yieldLocked (next : Pc Slot)
  | sleepLocked
  | wakeupLocked (q : Slot) (next : Pc Slot)
  | exitInit
  | exitReady
  | exitSelf
  | exitParent (originalParent : Slot)
  | exitParentLocked (originalParent : Slot)
  | exitBoth (originalParent : Slot)
  | exitChild (originalParent pp : Slot)
  | exitZombie
  | exited
  | waitScan
  | waitChild (np : Slot)
  | waitFreed (np : Slot)
  | waitRelease
  | forkScan
  | forkTest (np : Slot)
  | forkBuild (np : Slot)
  | forkRelease (np : Slot)

/-- What a CPU is doing: running `scheduler`, an interrupt handler that calls `wakeup`,
or the kernel thread of a process.  `back` is `scheduler` right after `swtch` has
returned, `restored` after `kvminithart()` and `c->proc = 0`. -/
inductive CpuPc (Slot : Type*)
  | idle
  | waking (q : Slot)
  | holding (p : Slot)
  | running (p : Slot)
  | back (p : Slot)
  | restored (p : Slot)

/-- The part of `struct proc` and of the CPUs that the scheduler works on.  `satp` is the
table of the last `kvminithart` or `kvminithart_proc` of a CPU, and `freed` the tables that
have been passed to `proc_freekernelpagetable` and not been allocated again since. -/
structure State (Cpu Slot : Type*) where
  state : Slot → ProcState
  parent : Slot → Option Slot
  kPagetable : Slot → ℕ
  lock : Slot → Option Cpu
  pc : Slot → Pc Slot
  cpu : Cpu → CpuPc Slot
  satp : Cpu → ℕ
  freed : Set ℕ

namespace State

@[simps]
def goto (s : State Cpu Slot) (p : Slot) (pc : Pc Slot) : State Cpu Slot :=
  { s with pc := Function.update s.pc p pc }

@[simps]
def setCpu (s : State Cpu Slot) (c : Cpu) (cpu : CpuPc Slot) : State Cpu Slot :=
  { s with cpu := Function.update s.cpu c cpu }

@[simps]
def setLock (s : State Cpu Slot) (q : Slot) (holder : Option Cpu) : State Cpu Slot :=
  { s with lock := Function.update s.lock q holder }

@[simps]
def setState (s : State Cpu Slot) (p : Slot) (state : ProcState) : State Cpu Slot :=
  { s with state := Function.update s.state p state }

@[simps]
def setParent (s : State Cpu Slot) (p : Slot) (parent : Option Slot) : State Cpu Slot :=
  { s with parent := Function.update s.parent p parent }

/-- `kvminithart` or `kvminithart_proc` with the given table. -/
@[simps]
def kvminithart (s : State Cpu Slot) (c : Cpu) (table : ℕ) : State Cpu Slot :=
  { s with satp := Function.update s.satp c table }

/-- `p->k_pagetable = kvminit_proc();` when there is memory. -/
@[simps]
def kvminitProc (s : State Cpu Slot) (p : Slot) (table : ℕ) : State Cpu Slot :=
  { s with kPagetable := Function.update s.kPagetable p table, freed := s.freed \ {table} }

/-- `freeproc(p)`: a table is passed to `proc_freekernelpagetable` if there is one. -/
@[simps]
def freeproc (s : State Cpu Slot) (p : Slot) : State Cpu Slot :=
  { s with
    freed := if s.kPagetable p = 0 then s.freed else insert (s.kPagetable p) s.freed
    kPagetable := Function.update s.kPagetable p 0
    parent := Function.update s.parent p none
    state := Function.update s.state p .unused }

/-- After `main`: every CPU has called `kvminithart`, and `userinit` has made the first
process. -/
@[simps]
def boot (kernelPagetable : ℕ) (initproc : Slot) (table : ℕ) : State Cpu Slot where
  state p := if p = initproc then .runnable else .unused
  parent _ := none
  kPagetable p := if p = initproc then table else 0
  lock _ := none
  pc _ := .resumed .user
  cpu _ := .idle
  satp _ := kernelPagetable
  freed := ∅

end State

/-- The process holds no process lock, so a timer interrupt may call `yield` and a device
interrupt may call `wakeup`. -/
def Pc.interruptible : Pc Slot → Prop
  | .user | .exitReady | .exitParent _ | .forkScan => True
  | _ => False

section Code

variable (initproc : Slot) (s : State Cpu Slot) (p : Slot)

/-- The calls of `acquire` by process `p`, with the lock that is taken. -/
inductive Acquires : Pc Slot → Slot → Pc Slot → Prop
  | yield {next} (h : next.interruptible) : Acquires next p (.yieldLocked next)
  | sleep : Acquires .user p .sleepLocked
  | wakeup {next} (q) (h : next.interruptible) : Acquires next q (.wakeupLocked q next)
  | exit (h : p ≠ initproc) : Acquires .user initproc .exitInit
  | exitSelf : Acquires .exitReady p .exitSelf
  | exitParent {originalParent} : Acquires (.exitParent originalParent) originalParent
      (.exitParentLocked originalParent)
  | exitBoth {originalParent} : Acquires (.exitParentLocked originalParent) p
      (.exitBoth originalParent)
  /-- `reparent` has found a child. -/
  | reparent {originalParent pp} (h : s.parent pp = some p) :
      Acquires (.exitBoth originalParent) pp (.exitChild originalParent pp)
  | wait : Acquires .user p .waitScan
  | waitChild {np} (h : s.parent np = some p) : Acquires .waitScan np (.waitChild np)
  | allocproc (np) : Acquires .forkScan np (.forkTest np)

/-- The calls of `release` by process `p` next to which nothing else changes. -/
inductive Releases : Pc Slot → Slot → Pc Slot → Prop
  | resumed {next} : Releases (.resumed next) p next
  | wakeup {q next} : Releases (.wakeupLocked q next) q next
  | exitInit : Releases .exitInit initproc .exitReady
  | exitSelf {originalParent} (h : s.parent p = some originalParent) :
      Releases .exitSelf p (.exitParent originalParent)
  | waitChild {np} (h : s.state np ≠ .zombie) : Releases (.waitChild np) np .waitScan
  /-- `copyout` has failed. -/
  | waitFail {np} (h : s.state np = .zombie) : Releases (.waitChild np) np .waitRelease
  | waitFreed {np} : Releases (.waitFreed np) np .waitRelease
  | waitRelease : Releases .waitRelease p .user
  /-- No children, or killed. -/
  | waitNone : Releases .waitScan p .user
  | allocproc {np} (h : s.state np ≠ .unused) : Releases (.forkTest np) np .forkScan
  /-- No page for the trapframe. -/
  | noTrapframe {np} (h : s.state np = .unused) : Releases (.forkTest np) np .user
  | fork {np} : Releases (.forkRelease np) np .user

/-- A `wakeup1` or the body of `wakeup` and the release behind it. -/
inductive Wakes : Pc Slot → Slot → Pc Slot → Prop
  | wakeup {q next} : Wakes (.wakeupLocked q next) q next
  | exitInit : Wakes .exitInit initproc .exitReady

/-- The calls of `sched`, with the state that the process has given itself and the place
where it will go on. -/
inductive Scheds : Pc Slot → ProcState → Pc Slot → Prop
  | yield {next} : Scheds (.yieldLocked next) .runnable (.resumed next)
  | sleep : Scheds .sleepLocked .sleeping (.resumed .user)
  /-- `sleep(p, &p->lock)` in `wait`. -/
  | wait : Scheds .waitScan .sleeping .waitScan
  | exit : Scheds .exitZombie .zombie .exited

/-- The calls of `freeproc`: in `wait` for a zombie, in `allocproc` when there is no
memory for one of the tables, and in `fork` when copying fails. -/
inductive Frees : Pc Slot → Slot → Pc Slot → Prop
  | wait {np} (h : s.state np = .zombie) : Frees (.waitChild np) np (.waitFreed np)
  | noKernelTable {np} (h : s.state np = .unused) : Frees (.forkTest np) np (.forkRelease np)
  | fork {np} : Frees (.forkBuild np) np (.forkRelease np)

end Code

/-- One step of CPU `c`. -/
inductive Step (kernelPagetable : ℕ) (initproc : Slot) : State Cpu Slot → State Cpu Slot → Prop
  /-- `scheduler` looks at the next slot. -/
  | pick {s c} (p : Slot) (hcpu : s.cpu c = .idle) (hfree : s.lock p = none) :
      Step kernelPagetable initproc s ((s.setLock p (some c)).setCpu c (.holding p))
  | skip {s c p} (hcpu : s.cpu c = .holding p) (hstate : s.state p ≠ .runnable) :
      Step kernelPagetable initproc s ((s.setLock p none).setCpu c .idle)
  /-- `p->state = RUNNING; kvminithart_proc(p->k_pagetable); swtch(...)`. -/
  | switchTo {s c p} (hcpu : s.cpu c = .holding p) (hstate : s.state p = .runnable) :
      Step kernelPagetable initproc s
        (((s.setState p .running).kvminithart c (s.kPagetable p)).setCpu c (.running p))
  | restore {s c p} (hcpu : s.cpu c = .back p) :
      Step kernelPagetable initproc s ((s.kvminithart c kernelPagetable).setCpu c (.restored p))
  | leave {s c p} (hcpu : s.cpu c = .restored p) :
      Step kernelPagetable initproc s ((s.setLock p none).setCpu c .idle)
  /-- A device interrupt on a CPU that runs `scheduler`. -/
  | interrupt {s c} (q : Slot) (hcpu : s.cpu c = .idle) (hfree : s.lock q = none) :
      Step kernelPagetable initproc s ((s.setLock q (some c)).setCpu c (.waking q))
  | interruptWake {s c q} (hcpu : s.cpu c = .waking q) (hstate : s.state q = .sleeping) :
      Step kernelPagetable initproc s
        (((s.setState q .runnable).setLock q none).setCpu c .idle)
  | interruptNone {s c q} (hcpu : s.cpu c = .waking q) :
      Step kernelPagetable initproc s ((s.setLock q none).setCpu c .idle)
  | acquire {s c p q pc} (hcpu : s.cpu c = .running p)
      (hcode : Acquires initproc s p (s.pc p) q pc) (hfree : s.lock q = none) :
      Step kernelPagetable initproc s ((s.setLock q (some c)).goto p pc)
  | release {s c p q pc} (hcpu : s.cpu c = .running p)
      (hcode : Releases initproc s p (s.pc p) q pc) :
      Step kernelPagetable initproc s ((s.setLock q none).goto p pc)
  | wake {s c p q pc} (hcpu : s.cpu c = .running p) (hcode : Wakes initproc (s.pc p) q pc)
      (hstate : s.state q = .sleeping) :
      Step kernelPagetable initproc s (((s.setState q .runnable).setLock q none).goto p pc)
  /-- `fork` is called; `allocproc` looks through the table. -/
  | fork {s c p} (hcpu : s.cpu c = .running p) (hpc : s.pc p = .user) :
      Step kernelPagetable initproc s (s.goto p .forkScan)
  /-- No slot is unused. -/
  | forkFull {s c p} (hcpu : s.cpu c = .running p) (hpc : s.pc p = .forkScan) :
      Step kernelPagetable initproc s (s.goto p .user)
  /-- `kvminit_proc` takes a page from `kalloc`, so nobody is using it. -/
  | kvminitProc {s c p np} (table : ℕ) (hcpu : s.cpu c = .running p)
      (hpc : s.pc p = .forkTest np) (hstate : s.state np = .unused) (hnull : table ≠ 0)
      (hkernel : table ≠ kernelPagetable) (hfresh : ∀ q, s.kPagetable q ≠ table) :
      Step kernelPagetable initproc s ((s.kvminitProc np table).goto p (.forkBuild np))
  /-- `np->parent = p; ... np->state = RUNNABLE;` -/
  | forkDone {s c p np} (hcpu : s.cpu c = .running p) (hpc : s.pc p = .forkBuild np) :
      Step kernelPagetable initproc s
        ((((s.setParent np (some p)).setState np .runnable).goto np (.resumed .user)).goto p
          (.forkRelease np))
  | freeproc {s c p np pc} (hcpu : s.cpu c = .running p) (hcode : Frees s (s.pc p) np pc) :
      Step kernelPagetable initproc s ((s.freeproc np).goto p pc)
  /-- `pp->parent = initproc;` -/
  | reparent {s c p originalParent pp} (hcpu : s.cpu c = .running p)
      (hpc : s.pc p = .exitChild originalParent pp) :
      Step kernelPagetable initproc s
        (((s.setParent pp (some initproc)).setLock pp none).goto p (.exitBoth originalParent))
  /-- `wakeup1(original_parent)` finds it asleep. -/
  | wakeParent {s c p originalParent} (hcpu : s.cpu c = .running p)
      (hpc : s.pc p = .exitBoth originalParent) (hstate : s.state originalParent = .sleeping) :
      Step kernelPagetable initproc s (s.setState originalParent .runnable)
  /-- `p->state = ZOMBIE; release(&original_parent->lock);` -/
  | zombie {s c p originalParent} (hcpu : s.cpu c = .running p)
      (hpc : s.pc p = .exitBoth originalParent) :
      Step kernelPagetable initproc s
        (((s.setState p .zombie).setLock originalParent none).goto p .exitZombie)
  /-- The process changes its state and switches to the scheduler of its CPU. -/
  | sched {s c p state pc} (hcpu : s.cpu c = .running p) (hcode : Scheds (s.pc p) state pc) :
      Step kernelPagetable initproc s (((s.setState p state).goto p pc).setCpu c (.back p))

end OperateSystem.Sched

import Mathlib.Data.Fintype.Basic
import OperateSystem.Core.Invariant

/-!
# System calls and the process table

The kernel of the second lab prints a line for a system call when the trace mask of the
calling process asks for it.  The mask is a field of the process slot: `trace` sets it,
`fork` copies it and `freeproc` clears it.  This module embeds `syscall` and what its
handlers do to the slots, with a step for each critical region; a process may be
switched out between any two of them.

The table size comes from a header, so it is a parameter.
-/

namespace OperateSystem.Syscall

/-- `enum procstate`. -/
inductive ProcState
  | unused
  | sleeping
  | runnable
  | running
  | zombie
  deriving DecidableEq

/-- The fields of `struct proc` that tell processes apart, and the mask. -/
structure Proc (nproc : ℕ) where
  state : ProcState
  parent : Option (Fin nproc)
  pid : ℕ
  mask : BitVec 32

/-! ## System call numbers -/

def sysFork : ℕ := 1
def sysExit : ℕ := 2
def sysWait : ℕ := 3
def sysTrace : ℕ := 22

/-- `syscallsName`. -/
def syscallsName : List String :=
  ["", "sys_fork", "sys_exit", "sys_wait", "sys_pipe", "sys_read", "sys_kill", "sys_exec",
    "sys_fstat", "sys_chdir", "sys_dup", "sys_getpid", "sys_sbrk", "sys_sleep", "sys_uptime",
    "sys_open", "sys_write", "sys_mknod", "sys_unlink", "sys_link", "sys_mkdir", "sys_close",
    "sys_trace", "sys_sysinfo"]

/-- `num > 0 && num < NELEM(syscalls) && syscalls[num]`; the table has no holes. -/
def validNum (num : ℕ) : Prop := 0 < num ∧ num < syscallsName.length

/-! ## The trace line -/

/-- `(p->mask >> num) % 2 == 1`, where the mask is an `int`: the shift keeps the sign and
the remainder has it. -/
def traced (mask : BitVec 32) (num : ℕ) : Bool :=
  (mask.sshiftRight num).toInt.tmod 2 = 1

/-- The arguments of `printf("%d: %s(%d) -> %d\n", ...)`. -/
structure Line where
  pid : ℕ
  name : String
  arg0 : Int
  a0 : Int
  deriving DecidableEq

/-- The end of `syscall`, after the handler has returned `a0`. -/
def traceLine {nproc : ℕ} (p : Proc nproc) (num : ℕ) (arg0 : BitVec 32) (a0 : BitVec 64) :
    Option Line :=
  if traced p.mask num then
    some ⟨p.pid, syscallsName.getD num "", arg0.toInt, (a0.setWidth 32).toInt⟩
  else none

/-! ## The kernel -/

/-- What `syscall` keeps on the kernel stack, and whether its handler is through. -/
structure Call where
  num : ℕ
  arg0 : BitVec 32
  done : Bool

/-- What happens to processes.  A process is named by the number of processes that were
created before it, since slots and, in the long run, pids come back. -/
inductive Event
  | userinit (child : ℕ)
  | fork (parent child : ℕ)
  | trace (proc : ℕ) (mask : BitVec 32)
  | returned (proc num : ℕ) (line : Option Line)

structure Kernel (nproc : ℕ) where
  procs : Fin nproc → Proc nproc
  calls : Fin nproc → Option Call
  initproc : Option (Fin nproc)
  nextpid : ℕ
  /-- The process that lives in a slot. -/
  owner : Fin nproc → ℕ
  born : ℕ
  /-- What has happened, latest first. -/
  log : List Event

variable {nproc : ℕ}

namespace Kernel

/-- The zeroed table at boot. -/
def boot : Kernel nproc where
  procs _ := ⟨.unused, none, 0, 0⟩
  calls _ := none
  initproc := none
  nextpid := 1
  owner _ := 0
  born := 0
  log := []

def setProc (s : Kernel nproc) (p : Fin nproc) (proc : Proc nproc) : Kernel nproc :=
  { s with procs := Function.update s.procs p proc }

def setCall (s : Kernel nproc) (p : Fin nproc) (call : Option Call) : Kernel nproc :=
  { s with calls := Function.update s.calls p call }

def setState (s : Kernel nproc) (p : Fin nproc) (state : ProcState) : Kernel nproc :=
  s.setProc p { s.procs p with state := state }

/-- The slot of a new process, from the pid that `allocproc` gives it to the state that
lets it run. -/
def create (s : Kernel nproc) (np : Fin nproc) (parent : Option (Fin nproc)) (mask : BitVec 32)
    (event : Event) : Kernel nproc :=
  { s with
    procs := Function.update s.procs np ⟨.runnable, parent, s.nextpid, mask⟩
    nextpid := s.nextpid + 1
    owner := Function.update s.owner np s.born
    born := s.born + 1
    log := event :: s.log }

/-- `freeproc`. -/
def freeproc (s : Kernel nproc) (p : Fin nproc) : Kernel nproc :=
  s.setProc p ⟨.unused, none, 0, 0⟩

/-- `reparent(p)`. -/
def reparent (s : Kernel nproc) (p : Fin nproc) : Kernel nproc :=
  { s with procs := fun pp =>
      if (s.procs pp).parent = some p then { s.procs pp with parent := s.initproc }
      else s.procs pp }

end Kernel

/-- Process `p` runs inside the handler of system call `num`. -/
structure Handles (s : Kernel nproc) (p : Fin nproc) (num : ℕ) (arg0 : BitVec 32) : Prop where
  running : (s.procs p).state = .running
  call : s.calls p = some ⟨num, arg0, false⟩

/-- A state that a live process passes through between its creation and its exit. -/
def ProcState.Active (state : ProcState) : Prop :=
  state = .sleeping ∨ state = .runnable ∨ state = .running

inductive Step : Kernel nproc → Kernel nproc → Prop
  /-- The scheduler, `yield`, `sleep` and `wakeup`. -/
  | switch {s : Kernel nproc} (p : Fin nproc) (state : ProcState)
      (hold : (s.procs p).state.Active) (hnew : state.Active) : Step s (s.setState p state)
  | userinit {s : Kernel nproc} (np : Fin nproc) (hinit : s.initproc = none)
      (hunused : (s.procs np).state = .unused) :
      Step s { s.create np (s.procs np).parent (s.procs np).mask (.userinit s.born) with
        initproc := some np }
  /-- `syscall` up to the call of the handler.  A number that is not valid runs none. -/
  | enter {s : Kernel nproc} (p : Fin nproc) (num : ℕ) (arg0 : BitVec 32) (hnum : validNum num)
      (hrunning : (s.procs p).state = .running) (huser : s.calls p = none) :
      Step s (s.setCall p (some ⟨num, arg0, false⟩))
  | fork {s : Kernel nproc} {p : Fin nproc} {arg0 : BitVec 32} (np : Fin nproc)
      (hcall : Handles s p sysFork arg0) (hunused : (s.procs np).state = .unused) :
      Step s ((s.create np (some p) (s.procs p).mask (.fork (s.owner p) s.born)).setCall p
        (some ⟨sysFork, arg0, true⟩))
  /-- No slot is free. -/
  | forkFull {s : Kernel nproc} {p : Fin nproc} {arg0 : BitVec 32}
      (hcall : Handles s p sysFork arg0) : Step s (s.setCall p (some ⟨sysFork, arg0, true⟩))
  /-- There is no page for the trapframe; the slot keeps the pid. -/
  | forkNoTrapframe {s : Kernel nproc} {p : Fin nproc} {arg0 : BitVec 32} (np : Fin nproc)
      (hcall : Handles s p sysFork arg0) (hunused : (s.procs np).state = .unused) :
      Step s ({ s.setProc np { s.procs np with pid := s.nextpid } with
        nextpid := s.nextpid + 1 }.setCall p (some ⟨sysFork, arg0, true⟩))
  /-- The page table or the copy of the user memory cannot be made. -/
  | forkUndone {s : Kernel nproc} {p : Fin nproc} {arg0 : BitVec 32} (np : Fin nproc)
      (hcall : Handles s p sysFork arg0) (hunused : (s.procs np).state = .unused) :
      Step s ({ s.freeproc np with nextpid := s.nextpid + 1 }.setCall p
        (some ⟨sysFork, arg0, true⟩))
  /-- `sys_trace`: the mask is the first argument. -/
  | trace {s : Kernel nproc} {p : Fin nproc} {mask : BitVec 32}
      (hcall : Handles s p sysTrace mask) :
      Step s ({ s.setProc p { s.procs p with mask := mask } with
        log := .trace (s.owner p) mask :: s.log }.setCall p (some ⟨sysTrace, mask, true⟩))
  /-- `exit`, called by its handler or by `usertrap` for a killed process. -/
  | exit {s : Kernel nproc} {p : Fin nproc} (hrunning : (s.procs p).state = .running)
      (hinit : s.initproc ≠ some p)
      (hcall : s.calls p = none ∨ ∃ arg0, Handles s p sysExit arg0) :
      Step s (((s.reparent p).setState p .zombie).setCall p none)
  | wait {s : Kernel nproc} {p : Fin nproc} {arg0 : BitVec 32} (np : Fin nproc)
      (hcall : Handles s p sysWait arg0) (hchild : (s.procs np).parent = some p)
      (hzombie : (s.procs np).state = .zombie) :
      Step s ((s.freeproc np).setCall p (some ⟨sysWait, arg0, true⟩))
  /-- No child, killed, or no room for the status. -/
  | waitFail {s : Kernel nproc} {p : Fin nproc} {arg0 : BitVec 32}
      (hcall : Handles s p sysWait arg0) : Step s (s.setCall p (some ⟨sysWait, arg0, true⟩))
  /-- The other handlers, `sys_exec` among them. -/
  | handler {s : Kernel nproc} {p : Fin nproc} {num : ℕ} {arg0 : BitVec 32}
      (hcall : Handles s p num arg0)
      (hother : num ≠ sysFork ∧ num ≠ sysExit ∧ num ≠ sysWait ∧ num ≠ sysTrace) :
      Step s (s.setCall p (some ⟨num, arg0, true⟩))
  /-- The rest of `syscall`. -/
  | syscall {s : Kernel nproc} {p : Fin nproc} {num : ℕ} {arg0 : BitVec 32} (a0 : BitVec 64)
      (hrunning : (s.procs p).state = .running) (hcall : s.calls p = some ⟨num, arg0, true⟩) :
      Step s ({ s with
        log := .returned (s.owner p) num (traceLine (s.procs p) num arg0 a0) :: s.log }.setCall p
          none)

end OperateSystem.Syscall

import OperateSystem.Vm.PageTable

/-!
# Processes

`proc.c`: the process table and the calls that create, grow, end and reap a
process.  A pointer to a process is its index in the table; a null pointer is
`none`.  Locks, open files and the scheduler are left out: a call is made by some
process of the table, and runs to its end.
-/

namespace OperateSystem.Vm

/-- `enum procstate`. -/
inductive ProcState
  | unused
  | sleeping
  | runnable
  | running
  | zombie
  deriving DecidableEq

/-- `struct proc`. -/
structure Proc where
  state : ProcState
  parent : Option ℕ
  chan : Option ℕ
  killed : Bool
  xstate : BitVec 32
  pid : ℕ
  kstack : ℕ
  kstackPa : ℕ
  sz : ℕ
  kPagetable : Option ℕ
  pagetable : Option ℕ
  trapframe : Option ℕ
  name : List Char

/-- Physical memory and the variables of `proc.c` and `vm.c`. -/
structure Kernel where
  machine : Machine
  proc : ℕ → Proc
  initproc : Option ℕ
  nextpid : ℕ
  kernelPagetable : ℕ

namespace Kernel

/-- The entry of a process gets new contents. -/
def set (s : Kernel) (i : ℕ) (p : Proc) (m : Machine) : Kernel :=
  { s with machine := m, proc := Function.update s.proc i p }

end Kernel

/-- Words of `struct trapframe`, which has 36 of them. -/
def epc : Fin 512 := 3
def sp : Fin 512 := 6
def a0 : Fin 512 := 14
def a1 : Fin 512 := 15

/-- `safestrcpy(dst, src, 16)`. -/
def safestrcpy (src : List Char) : List Char := src.take 15

/-- A pointer that is followed without a check. -/
def deref (pointer : Option ℕ) : Except Fault ℕ :=
  match pointer with
  | some page => .ok page
  | none => .error .null

/-- An entry of the process table before boot. -/
def Proc.zero : Proc where
  state := .unused
  parent := none
  chan := none
  killed := false
  xstate := 0
  pid := 0
  kstack := 0
  kstackPa := 0
  sz := 0
  kPagetable := none
  pagetable := none
  trapframe := none
  name := []

/-- The loop of `procinit`, over the entries `is`. -/
def procinit (L : Layout) : List ℕ → Kernel → Except Fault Kernel
  | [], s => .ok s
  | i :: is, s => do
      let (some page, m) := s.machine.kalloc | throw (.panic "kalloc")
      let m ← kvmmap m s.kernelPagetable (L.kstack i * pgSize) page pgSize (pteR ||| pteW)
      procinit L is (s.set i { s.proc i with kstackPa := page, kstack := L.kstack i } m)

/-- `kvminit(); procinit();` on a machine whose pages are all free. -/
def boot (L : Layout) (m : Machine) : Except Fault Kernel := do
  let (page, m) ← kvminit L m
  procinit L (List.range L.nproc) ⟨m, fun _ => Proc.zero, none, 1, page⟩

/-- `proc_pagetable(p)`. -/
def procPagetable (L : Layout) (m : Machine) (frame : ℕ) : Except Fault (Option ℕ × Machine) := do
  let (some pagetable, m) := uvmcreate m | return (none, m)
  let (ok, m) ← mappages m pagetable (trampoline * pgSize) pgSize L.trampolinePa (pteR ||| pteX)
  if ok = false then
    let m ← uvmfree m pagetable 0
    return (none, m)
  else
    let (ok, m) ← mappages m pagetable (trapframe * pgSize) pgSize frame (pteR ||| pteW)
    if ok = false then
      let m ← uvmunmap m pagetable (trampoline * pgSize) 1 false
      let m ← uvmfree m pagetable 0
      return (none, m)
    else return (some pagetable, m)

/-- `proc_freekernelpagetable(pagetable)`. -/
def procFreekernelpagetable : Machine → ℕ → Except Fault Machine := kvmfree

/-- `proc_freeuserpagetable(pagetable, sz)`. -/
def procFreeuserpagetable (m : Machine) (pagetable sz : ℕ) : Except Fault Machine := do
  let m ← uvmunmap m pagetable (trampoline * pgSize) 1 false
  let m ← uvmunmap m pagetable (trapframe * pgSize) 1 false
  uvmfree m pagetable sz

/-- `freeproc(p)`. -/
def freeproc (m : Machine) (p : Proc) : Except Fault (Proc × Machine) := do
  let m := match p.trapframe with
    | some frame => m.kfree frame
    | none => m
  let m ← match p.pagetable with
    | some pagetable => procFreeuserpagetable m pagetable p.sz
    | none => .ok m
  let m ← match p.kPagetable with
    | some kPagetable => procFreekernelpagetable m kPagetable
    | none => .ok m
  return ({ p with
    trapframe := none, pagetable := none, kPagetable := none, sz := 0, pid := 0, parent := none,
    name := [], chan := none, killed := false, xstate := 0, state := .unused }, m)

/-- `allocproc` from `found` on.  The test of `kvminit_proc` for 0 is left out:
that function writes to the page before it returns. -/
def allocprocFound (L : Layout) (m : Machine) (p : Proc) (pid : ℕ) :
    Except Fault (Bool × Proc × Machine) := do
  let p := { p with pid := pid }
  let (some frame, m) := m.kalloc | return (false, { p with trapframe := none }, m)
  let p := { p with trapframe := some frame }
  let (kPagetable, m) ← kvminitProc L m
  let p := { p with kPagetable := some kPagetable }
  let m ← kvmmapProc m kPagetable (p.kstack * pgSize) p.kstackPa pgSize (pteR ||| pteW)
  let (pagetable, m) ← procPagetable L m frame
  let p := { p with pagetable := pagetable }
  if pagetable = none then
    let (p, m) ← freeproc m p
    return (false, p, m)
  else return (true, p, m)

/-- `allocproc()`. -/
def allocproc (L : Layout) (s : Kernel) : Except Fault (Option ℕ × Kernel) :=
  match (List.range L.nproc).find? fun i => (s.proc i).state = .unused with
  | none => .ok (none, s)
  | some i => do
      let (ok, p, m) ← allocprocFound L s.machine (s.proc i) s.nextpid
      return (if ok then some i else none, { s.set i p m with nextpid := s.nextpid + 1 })

/-- `initcode`. -/
def initcode : List (BitVec 8) :=
  [0x17, 0x05, 0x00, 0x00, 0x13, 0x05, 0x45, 0x02,
   0x97, 0x05, 0x00, 0x00, 0x93, 0x85, 0x35, 0x02,
   0x93, 0x08, 0x70, 0x00, 0x73, 0x00, 0x00, 0x00,
   0x93, 0x08, 0x20, 0x00, 0x73, 0x00, 0x00, 0x00,
   0xef, 0xf0, 0x9f, 0xff, 0x2f, 0x69, 0x6e, 0x69,
   0x74, 0x00, 0x00, 0x24, 0x00, 0x00, 0x00, 0x00,
   0x00, 0x00, 0x00, 0x00]

/-- `userinit()`.  The result is that of `kvmcopy`, which the code does not look
at. -/
def userinit (L : Layout) (s : Kernel) : Except Fault (Bool × Kernel) := do
  let (np, s) ← allocproc L s
  let i ← deref np
  let s := { s with initproc := some i }
  let p := s.proc i
  let pagetable ← deref p.pagetable
  let m ← uvminit s.machine pagetable initcode
  let p := { p with sz := pgSize }
  let kPagetable ← deref p.kPagetable
  let (ok, m) ← kvmcopy L m pagetable kPagetable 0 p.sz
  let frame ← deref p.trapframe
  let m := (m.store frame epc 0).store frame sp (BitVec.ofNat 64 pgSize)
  return (ok, s.set i { p with name := safestrcpy "initcode".toList, state := .runnable } m)

/-- `growproc(n)` of the process `p`, with its `uint` and `uint64` arithmetic. -/
def growproc (L : Layout) (m : Machine) (p : Proc) (n : Int) :
    Except Fault (Bool × Proc × Machine) := do
  let pagetable ← deref p.pagetable
  let kPagetable ← deref p.kPagetable
  let sz := u32 p.sz
  if 0 < n then
    let (sz, m) ← uvmalloc m pagetable sz (u32 (sz + n))
    if u32 sz = 0 then return (false, p, m)
    else
      let (ok, m) ← kvmcopy L m pagetable kPagetable p.sz (u64 (p.sz + n))
      if ok = false then return (false, p, m)
      else return (true, { p with sz := u32 sz }, m)
  else if n < 0 then
    let (sz, m) ← uvmdealloc m pagetable sz (u32 (sz + n))
    let (_, m) ← kvmdealloc m kPagetable p.sz (u64 (p.sz + n))
    return (true, { p with sz := u32 sz }, m)
  else return (true, { p with sz := sz }, m)

/-- `*(np->trapframe) = *(p->trapframe); np->trapframe->a0 = 0`. -/
def copyTrapframe (m : Machine) (frame frame' : ℕ) : Machine :=
  (m.fill frame' fun i => if i.val < 36 then m.mem frame i else m.mem frame' i).store frame' a0 0

/-- `fork()` of process `i`: the pid of the child, or none for -1. -/
def fork (L : Layout) (s : Kernel) (i : ℕ) : Except Fault (Option ℕ × Kernel) := do
  match ← allocproc L s with
  | (none, s) => return (none, s)
  | (some j, s) =>
      let p := s.proc i
      let np := s.proc j
      let pagetable ← deref p.pagetable
      let npPagetable ← deref np.pagetable
      let (ok, m) ← uvmcopy s.machine pagetable npPagetable p.sz
      if ok = false then
        let (np, m) ← freeproc m np
        return (none, s.set j np m)
      else
        let npKPagetable ← deref np.kPagetable
        let (ok, m) ← kvmcopy L m npPagetable npKPagetable 0 p.sz
        if ok = false then
          let (np, m) ← freeproc m np
          return (none, s.set j np m)
        else
          let frame ← deref p.trapframe
          let npFrame ← deref np.trapframe
          let m := copyTrapframe m frame npFrame
          let np := { np with
            sz := p.sz, parent := some i, name := safestrcpy p.name, state := .runnable }
          return (some np.pid, s.set j np m)

/-- `reparent(p)`. -/
def reparent (s : Kernel) (i : ℕ) : Kernel :=
  { s with proc := fun j =>
      if (s.proc j).parent = some i then { s.proc j with parent := s.initproc } else s.proc j }

/-- `wakeup1(p)`. -/
def wakeup1 (s : Kernel) (i : ℕ) : Kernel :=
  if (s.proc i).chan = some i ∧ (s.proc i).state = .sleeping then
    s.set i { s.proc i with state := .runnable } s.machine
  else s

/-- `exit(status)` of process `i`, up to the call of `sched`. -/
def exit (s : Kernel) (i : ℕ) (status : BitVec 32) : Except Fault Kernel :=
  if s.initproc = some i then .error (.panic "init exiting")
  else do
    let initproc ← deref s.initproc
    let s := wakeup1 s initproc
    let originalParent ← deref (s.proc i).parent
    let s := wakeup1 (reparent s i) originalParent
    return s.set i { s.proc i with xstate := status, state := .zombie } s.machine

/-- What `wait` comes to: a pid, -1, or the process goes to sleep and looks again
when it is woken. -/
inductive Waited
  | reaped (pid : ℕ)
  | failed
  | asleep
  deriving DecidableEq

/-- The bytes of an `int`. -/
def intBytes (x : BitVec 32) : List (BitVec 8) :=
  [x.extractLsb' 0 8, x.extractLsb' 8 8, x.extractLsb' 16 8, x.extractLsb' 24 8]

/-- `wait(addr)` of process `i`: one round of its loop. -/
def wait (L : Layout) (s : Kernel) (i addr : ℕ) : Except Fault (Waited × Kernel) :=
  match (List.range L.nproc).find? fun j =>
      (s.proc j).parent = some i ∧ (s.proc j).state = .zombie with
  | some j => do
      let np := s.proc j
      let (ok, m) ← (if addr ≠ 0 then do
          let pagetable ← deref (s.proc i).pagetable
          copyout s.machine pagetable addr (intBytes np.xstate)
        else .ok (true, s.machine))
      if ok = false then return (.failed, { s with machine := m })
      else
        let (np', m) ← freeproc m np
        return (.reaped np.pid, s.set j np' m)
  | none =>
      if (List.range L.nproc).all (fun j => (s.proc j).parent ≠ some i) ∨ (s.proc i).killed then
        .ok (.failed, s)
      else .ok (.asleep, s.set i { s.proc i with chan := some i, state := .sleeping } s.machine)

end OperateSystem.Vm

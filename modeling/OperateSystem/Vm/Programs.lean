import OperateSystem.Core.Trace
import OperateSystem.Vm.Loading

/-!
# What the kernel does to programs

To its user a process is a memory and some registers, and a process table is a family of
such programs, with no page tables and no shared pages of memory.  Every call of the kernel
and every store of a user is one of a few changes to this family, and touches the program of
the caller, or of the child that is made or reaped, and no other.
-/

namespace OperateSystem.Vm

open OperateSystem.PointerTree OperateSystem.Translation

/-- A process as its user sees it: the size of its memory, the bytes the user may use, and
the words of its trapframe. -/
@[ext]
structure Program where
  size : ℕ
  memory : ℕ → Option (BitVec 8)
  registers : Fin 512 → Word

namespace Program

/-- The words of a trapframe, of which there are 36. -/
def words (registers : Fin 512 → Word) : Fin 512 → Word := fun k =>
  if k.val < 36 then registers k else 0

/-- The child in `fork`. -/
def forked (prog : Program) : Program :=
  { prog with registers := Function.update prog.registers a0 0 }

/-- The program with another size; new memory is zero. -/
def resize (prog : Program) (newsz : ℕ) : Program :=
  { prog with
    size := newsz
    memory := fun va =>
      if va / pgSize < pages newsz then
        if va / pgSize < pages prog.size then prog.memory va else some 0
      else none }

/-- A byte of memory gets a value. -/
def put (prog : Program) (va : ℕ) (byte : BitVec 8) : Program :=
  { prog with memory := Function.update prog.memory va (some byte) }

/-- Bytes are stored one after the other, up to the first address that the user may not
use. -/
def deliver : Program → ℕ → List (BitVec 8) → Program
  | prog, _, [] => prog
  | prog, va, byte :: bytes =>
      if (prog.memory va).isSome then (prog.put va byte).deliver (va + 1) bytes else prog

end Program

/-- The programs in the entries of the process table. -/
abbrev Programs := ℕ → Option Program

/-- What happens in a kernel, with the entry of the process it happens to. -/
inductive Event
  | userinit
  | fork (i : ℕ)
  | exec (i : ℕ) (ip : Option Inode)
  | growproc (i : ℕ) (n : Int)
  | exit (i : ℕ)
  | wait (i addr : ℕ)
  | copyout (i va : ℕ) (bytes : List (BitVec 8))
  | store (i va : ℕ) (byte : BitVec 8)
  | trap (i : ℕ) (registers : Fin 512 → Word)

/-- The first program. -/
structure Program.Initial (prog : Program) : Prop where
  size : prog.size = pgSize
  memory : ∀ va, prog.memory va = if va < pgSize then some (initcode.getD va 0) else none
  epc : prog.registers Vm.epc = 0
  sp : prog.registers Vm.sp = BitVec.ofNat 64 pgSize

/-- A program that has just been loaded from a file: the segments of the file with zeros
between them, a guard page and a stack page. -/
structure Program.Loaded (prog : Program) (ip : Inode) (n : ℕ) : Prop where
  size : prog.size = (n + 2) * pgSize
  image : ∀ va, va < n * pgSize →
    prog.memory va = some (imageByte ip (fun _ => 0) (headersOf ip) va)
  fits : ∀ va, n * pgSize ≤ va → imageByte ip (fun _ => 0) (headersOf ip) va = 0
  guard : ∀ va, n * pgSize ≤ va → va < (n + 1) * pgSize → prog.memory va = none
  stack : ∀ va, (n + 1) * pgSize ≤ va → va < (n + 2) * pgSize → prog.memory va ≠ none
  above : ∀ va, (n + 2) * pgSize ≤ va → prog.memory va = none
  epc : prog.registers Vm.epc = BitVec.ofNat 64 (elfhdr (ip.readi 0 elfSize)).entry
  sp : prog.registers Vm.sp = prog.registers a1

/-- What an event does to the programs.  A call that fails changes nothing, with the exception
of `wait`, which may have stored a part of the status. -/
inductive Effect : Programs → Event → Programs → Prop
  | userinit {P : Programs} {j : ℕ} {prog : Program} (hnew : P j = none) (hprog : prog.Initial) :
      Effect P .userinit (Function.update P j (some prog))
  | fork {P : Programs} {i j : ℕ} {prog : Program} (hparent : P i = some prog)
      (hnew : P j = none) : Effect P (.fork i) (Function.update P j (some prog.forked))
  | forkFailed {P : Programs} {i : ℕ} : Effect P (.fork i) P
  | exec {P : Programs} {i n : ℕ} {ip : Inode} {prog prog' : Program} (hprog : P i = some prog)
      (hloaded : prog'.Loaded ip n) :
      Effect P (.exec i (some ip)) (Function.update P i (some prog'))
  | execFailed {P : Programs} {i : ℕ} {ip : Option Inode} : Effect P (.exec i ip) P
  | growproc {P : Programs} {i : ℕ} {n : Int} {prog : Program} (hprog : P i = some prog) :
      Effect P (.growproc i n)
        (Function.update P i (some (prog.resize (resized prog.size n))))
  | growprocFailed {P : Programs} {i : ℕ} {n : Int} : Effect P (.growproc i n) P
  | exit {P : Programs} {i : ℕ} : Effect P (.exit i) P
  | reaped {P : Programs} {i j addr : ℕ} {status : BitVec 32} {prog child : Program}
      (hprog : P i = some prog) (hchild : P j = some child) :
      Effect P (.wait i addr) (Function.update
        (Function.update P i
          (some (if addr = 0 then prog else prog.deliver addr (intBytes status))))
        j none)
  | waitFailed {P : Programs} {i addr : ℕ} {status : BitVec 32} {prog : Program}
      (hprog : P i = some prog) : Effect P (.wait i addr)
        (Function.update P i (some (prog.deliver addr (intBytes status))))
  | waiting {P : Programs} {i addr : ℕ} : Effect P (.wait i addr) P
  | copyout {P : Programs} {i va : ℕ} {bytes : List (BitVec 8)} {prog : Program}
      (hprog : P i = some prog) :
      Effect P (.copyout i va bytes) (Function.update P i (some (prog.deliver va bytes)))
  | store {P : Programs} {i va : ℕ} {byte : BitVec 8} {prog : Program} (hprog : P i = some prog)
      (hopen : (prog.memory va).isSome) :
      Effect P (.store i va byte) (Function.update P i (some (prog.put va byte)))
  | trap {P : Programs} {i : ℕ} {registers : Fin 512 → Word} {prog : Program}
      (hprog : P i = some prog) : Effect P (.trap i registers)
        (Function.update P i (some { prog with registers := Program.words registers }))

/-- The program of a process. -/
def programOf (m : Machine) (p : Proc) : Option Program :=
  if p.state = .unused then none
  else some {
    size := p.sz
    memory := fun va => p.pagetable.bind fun user => userMemory m user va
    registers := (p.trapframe.map fun frame => Program.words (m.mem frame)).getD fun _ => 0 }

/-- The programs of the process table. -/
def programs (L : Layout) (s : Kernel) : Programs := fun i =>
  if i < L.nproc then programOf s.machine (s.proc i) else none

end OperateSystem.Vm

import OperateSystem.Vm.Proc

/-!
# Running a program

`exec.c`: a new user page table is filled from an ELF file, gets a guard page, a
stack page and the arguments, and takes the place of the old one.  `readi` and the
layout of ELF headers are not part of the sources: a file is given by what `readi`
copies, and the header fields are those of 64-bit ELF.

An argument string is the list of its bytes without the final NUL.  Locks and the
log are left out.
-/

namespace OperateSystem.Vm

/-- A locked inode: `readi(ip, 0, dst, off, n)` copies these bytes to `dst` and returns
their number. -/
structure Inode where
  readi : (off n : ℕ) → List (BitVec 8)
  readi_le : ∀ off n, (readi off n).length ≤ n

/-- `n` bytes at offset `ofs` of a structure, as a number. -/
def field (bytes : List (BitVec 8)) (ofs n : ℕ) : ℕ :=
  ((bytes.drop ofs).take n).foldr (fun byte rest => byte.toNat + 256 * rest) 0

/-- `struct elfhdr`. -/
structure ElfHdr where
  magic : ℕ
  entry : ℕ
  phoff : ℕ
  phnum : ℕ

/-- `struct proghdr`. -/
structure ProgHdr where
  type : ℕ
  off : ℕ
  vaddr : ℕ
  filesz : ℕ
  memsz : ℕ

/-- `sizeof(struct elfhdr)` and `sizeof(struct proghdr)`. -/
def elfSize : ℕ := 64
def phSize : ℕ := 56

/-- `ELF_MAGIC` and `ELF_PROG_LOAD`. -/
def elfMagic : ℕ := 0x464C457F
def elfProgLoad : ℕ := 1

def elfhdr (bytes : List (BitVec 8)) : ElfHdr where
  magic := field bytes 0 4
  entry := field bytes 24 8
  phoff := field bytes 32 8
  phnum := field bytes 56 2

def proghdr (bytes : List (BitVec 8)) : ProgHdr where
  type := field bytes 0 4
  off := field bytes 8 8
  vaddr := field bytes 16 8
  filesz := field bytes 32 8
  memsz := field bytes 40 8

/-- The loop of `loadseg`, over `npages` pages from offset `i` on. -/
def loadsegLoop (ip : Inode) (pagetable va offset sz : ℕ) : (npages i : ℕ) → Machine →
    Except Fault (Bool × Machine)
  | 0, _, m => .ok (true, m)
  | npages + 1, i, m => do
      let some page ← walkaddr m pagetable (u64 (va + i))
        | throw (.panic "loadseg: address should exist")
      let n := if sz - i < pgSize then sz - i else pgSize
      let bytes := ip.readi (u32 (offset + i)) n
      let m := m.write page 0 bytes
      if bytes.length = n then loadsegLoop ip pagetable va offset sz npages (i + pgSize) m
      else return (false, m)

/-- `loadseg(pagetable, va, ip, offset, sz)`. -/
def loadseg (m : Machine) (pagetable va : ℕ) (ip : Inode) (offset sz : ℕ) :
    Except Fault (Bool × Machine) :=
  if va % pgSize ≠ 0 then .error (.panic "loadseg: va must be page aligned")
  else loadsegLoop ip pagetable va offset sz ((sz + (pgSize - 1)) / pgSize) 0 m

/-- One turn of the loop over the program headers, with the size of the image so far.
The result tells whether the loop goes on. -/
def execSegment (m : Machine) (pagetable : ℕ) (ip : Inode) (ph : ProgHdr) (sz : ℕ) :
    Except Fault (Bool × ℕ × Machine) :=
  if ph.type ≠ elfProgLoad then .ok (true, sz, m)
  else if ph.memsz < ph.filesz then .ok (false, sz, m)
  else if u64 (ph.vaddr + ph.memsz) < ph.vaddr then .ok (false, sz, m)
  else do
    let (sz1, m) ← uvmalloc m pagetable sz (u64 (ph.vaddr + ph.memsz))
    if sz1 = 0 then return (false, sz, m)
    else if ph.vaddr % pgSize ≠ 0 then return (false, sz1, m)
    else
      let (ok, m) ← loadseg m pagetable ph.vaddr ip (u32 ph.off) (u32 ph.filesz)
      return (ok, sz1, m)

/-- The loop over the program headers from offset `off` on. -/
def execLoad (pagetable : ℕ) (ip : Inode) : (phnum off sz : ℕ) → Machine →
    Except Fault (Bool × ℕ × Machine)
  | 0, _, sz, m => .ok (true, sz, m)
  | phnum + 1, off, sz, m =>
      let bytes := ip.readi off phSize
      if bytes.length ≠ phSize then .ok (false, sz, m)
      else do
        let (ok, sz, m) ← execSegment m pagetable ip (proghdr bytes) sz
        if ok then execLoad pagetable ip phnum (u32 (off + phSize)) sz m
        else return (false, sz, m)

/-- The guard page and the stack page above an image of `sz` bytes. -/
def execStack (m : Machine) (pagetable sz : ℕ) : Except Fault (Bool × ℕ × Machine) := do
  let sz := pgRoundUp sz
  let (sz1, m) ← uvmalloc m pagetable sz (u64 (sz + 2 * pgSize))
  if sz1 = 0 then return (false, sz, m)
  else
    let m ← uvmclear m pagetable (u64 (sz1 - 2 * pgSize))
    return (true, sz1, m)

/-- The loop that pushes the argument strings; `ustack` has the addresses of those
pushed so far. -/
def pushArgs (L : Layout) (pagetable stackbase : ℕ) : (argv : List (List (BitVec 8))) →
    (sp : ℕ) → (ustack : List ℕ) → Machine → Except Fault (Option (ℕ × List ℕ) × Machine)
  | [], sp, ustack, m => .ok (some (sp, ustack), m)
  | arg :: argv, sp, ustack, m =>
      if L.maxArg ≤ ustack.length then .ok (none, m)
      else
        let sp := u64 (sp - (arg.length + 1))
        let sp := sp - sp % 16
        if sp < stackbase then .ok (none, m)
        else do
          let (ok, m) ← copyout m pagetable sp (arg ++ [0])
          if ok = false then return (none, m)
          else pushArgs L pagetable stackbase argv sp (ustack ++ [sp]) m

/-- The bytes of a `uint64`. -/
def wordBytes (word : Word) : List (BitVec 8) :=
  (List.range 8).map fun k => word.extractLsb' (8 * k) 8

/-- The strings and the array of pointers to them, below `sz`; the result is the stack
pointer. -/
def execArgs (L : Layout) (m : Machine) (pagetable sz : ℕ) (argv : List (List (BitVec 8))) :
    Except Fault (Option ℕ × Machine) := do
  let stackbase := u64 (sz - pgSize)
  let (pushed, m) ← pushArgs L pagetable stackbase argv sz [] m
  let some (sp, ustack) := pushed | return (none, m)
  let sp := u64 (sp - (ustack.length + 1) * 8)
  let sp := sp - sp % 16
  if sp < stackbase then return (none, m)
  else
    let array := (ustack ++ [0]).flatMap fun pointer => wordBytes (BitVec.ofNat 64 pointer)
    let (ok, m) ← copyout m pagetable sp array
    if ok = false then return (none, m) else return (some sp, m)

/-- The part of a path after the last `/`. -/
def baseName (path : List Char) : List Char :=
  path.foldl (fun last c => if c = '/' then [] else last ++ [c]) []

/-- `bad`, when there is a page table. -/
def execBad (m : Machine) (p : Proc) (pagetable sz : ℕ) :
    Except Fault (Option ℕ × Proc × Machine) := do
  let m ← procFreeuserpagetable m pagetable sz
  return (none, p, m)

/-- The new image takes the place of the old one. -/
def execCommit (L : Layout) (m : Machine) (p : Proc) (pagetable sz sp entry argc : ℕ)
    (path : List Char) : Except Fault (Option ℕ × Proc × Machine) := do
  let frame ← deref p.trapframe
  let oldpagetable ← deref p.pagetable
  let kPagetable ← deref p.kPagetable
  let oldsz := p.sz
  let m := m.store frame a1 (BitVec.ofNat 64 sp)
  let p := { p with name := safestrcpy (baseName path), pagetable := some pagetable }
  let (_, m) ← kvmdealloc m kPagetable p.sz 0
  let (ok, m) ← kvmcopy L m pagetable kPagetable 0 sz
  if ok = false then execBad m p pagetable sz
  else
    let p := { p with sz := sz }
    let m := (m.store frame epc (BitVec.ofNat 64 entry)).store frame Vm.sp (BitVec.ofNat 64 sp)
    let m ← procFreeuserpagetable m oldpagetable oldsz
    let _ ← (if p.pid = 1 then vmprint m 3 pagetable else .ok ())
    return (some argc, p, m)

/-- `exec` from the loading of the file on. -/
def execImage (L : Layout) (m : Machine) (p : Proc) (pagetable : ℕ) (ip : Inode) (elf : ElfHdr)
    (path : List Char) (argv : List (List (BitVec 8))) :
    Except Fault (Option ℕ × Proc × Machine) := do
  let (ok, sz, m) ← execLoad pagetable ip elf.phnum (u32 elf.phoff) 0 m
  if ok = false then execBad m p pagetable sz
  else
    let (ok, sz, m) ← execStack m pagetable sz
    if ok = false then execBad m p pagetable sz
    else
      let (pushed, m) ← execArgs L m pagetable sz argv
      match pushed with
      | none => execBad m p pagetable sz
      | some sp => execCommit L m p pagetable sz sp elf.entry argv.length path

/-- `exec(path, argv)` of the process `p`, where `namei(path)` is `ip`: the number of
arguments, or none for -1. -/
def exec (L : Layout) (m : Machine) (p : Proc) (ip : Option Inode) (path : List Char)
    (argv : List (List (BitVec 8))) : Except Fault (Option ℕ × Proc × Machine) :=
  match ip with
  | none => .ok (none, p, m)
  | some ip =>
      let bytes := ip.readi 0 elfSize
      if bytes.length ≠ elfSize then .ok (none, p, m)
      else if (elfhdr bytes).magic ≠ elfMagic then .ok (none, p, m)
      else do
        let frame ← deref p.trapframe
        let (made, m) ← procPagetable L m frame
        match made with
        | none => return (none, p, m)
        | some pagetable => execImage L m p pagetable ip (elfhdr bytes) path argv

end OperateSystem.Vm

import Mathlib.Algebra.Group.Nat.Defs
import Mathlib.Data.List.Basic
import OperateSystem.Core.Session

/-!
# The handlers of the file system calls

`sysfile.c`, and the parts of `fork` and `exit` that have to do with files, as programs that
call the rest of the kernel: the file table, the file system and its log, the allocator and
the process table.  What those calls do is not in these programs; their answers are.

A value that is not there is none: a null pointer, or the -1 of a function that reports an
error.  The constants come from headers, so they are parameters.
-/

namespace OperateSystem.Syscall

open OperateSystem.Session

/-- The constants of the headers. -/
structure Headers where
  nofile : ℕ
  maxArg : ℕ
  ndev : ℕ
  tDir : BitVec 16
  tFile : BitVec 16
  tDevice : BitVec 16
  oRdonly : BitVec 32
  oWronly : BitVec 32
  oRdwr : BitVec 32
  oCreate : BitVec 32
  oTrunc : BitVec 32

/-- The fields of `struct inode` that its lock protects. -/
structure Fields where
  type : BitVec 16
  major : BitVec 16
  minor : BitVec 16
  nlink : BitVec 16
  size : ℕ

/-- The size of a `struct dirent`. -/
def direntSize : ℕ := 16

/-- A call of a handler: `P` are the entries of the process table, `F` those of the file table
and `I` the inodes in memory. -/
inductive Op (P F I : Type)
  -- The arguments of the system call and the memory of the user.
  | argint (n : ℕ)
  | argaddr (n : ℕ)
  | argstr (n : ℕ)
  | fetchaddr (addr : ℕ)
  | fetchstr (addr page : ℕ)
  | copyout (addr : ℕ) (value : ℕ)
  -- The calling process.
  | ofile (fd : ℕ)
  | setOfile (fd : ℕ) (f : Option F)
  | cwd
  | setCwd (ip : Option I)
  -- The file table.
  | filealloc
  | filedup (f : F)
  | fileclose (f : F)
  | fileread (f : F) (addr : ℕ) (n : BitVec 32)
  | filewrite (f : F) (addr : ℕ) (n : BitVec 32)
  | filestat (f : F) (addr : ℕ)
  | pipealloc
  | setFile (f : F) (major : Option (BitVec 16)) (ip : I) (readable writable : Bool)
  -- The log and the file system.
  | beginOp
  | endOp
  | namei (path : List Char)
  | nameiparent (path : List Char)
  | ialloc (dev : ℕ) (type : BitVec 16)
  | ilock (ip : I)
  | iunlock (ip : I)
  | iput (ip : I)
  | iunlockput (ip : I)
  | idup (ip : I)
  | iupdate (ip : I)
  | itrunc (ip : I)
  | dirlookup (dp : I) (name : List Char)
  | dirlink (dp : I) (name : List Char) (inum : ℕ)
  | readi (ip : I) (off : ℕ)
  | writei (ip : I) (off : ℕ)
  | dev (ip : I)
  | inum (ip : I)
  | fields (ip : I)
  | setFields (ip : I) (fields : Fields)
  -- The allocator and `exec`.
  | kalloc
  | kfree (page : ℕ)
  | exec (path : List Char) (argv : List ℕ)
  -- The process table.
  | allocproc
  | uvmcopy (np : P)
  | freeproc (np : P)
  | childOfile (np : P) (fd : ℕ) (f : F)
  | childCwd (np : P) (ip : I)
  | runnable (np : P)
  | zombie
  | panic (message : String)

/-- What the calls answer.  `dirlookup` gives the offset of the entry as well, `readi` the
number of bytes read and the inode number in them, and nothing comes after a panic. -/
@[reducible]
def Answer {P F I : Type} : Op P F I → Type
  | .argint _ => Option (BitVec 32)
  | .argaddr _ | .fetchaddr _ | .kalloc => Option ℕ
  | .argstr _ => Option (List Char)
  | .fetchstr _ _ | .copyout _ _ | .dirlink _ _ _ | .uvmcopy _ => Bool
  | .ofile _ | .filealloc => Option F
  | .cwd => I
  | .fileread _ _ _ | .filewrite _ _ _ | .filestat _ _ | .exec _ _ | .runnable _ => Int
  | .pipealloc => Option (F × F)
  | .namei _ | .ialloc _ _ => Option I
  | .nameiparent _ => Option (I × List Char)
  | .dirlookup _ _ => Option (I × ℕ)
  | .readi _ _ => ℕ × BitVec 16
  | .writei _ _ | .dev _ | .inum _ => ℕ
  | .fields _ => Fields
  | .allocproc => Option P
  | .panic _ => Empty
  | .setOfile _ _ | .setCwd _ | .filedup _ | .fileclose _ | .setFile _ _ _ _ _ | .beginOp | .endOp
  | .ilock _ | .iunlock _ | .iput _ | .iunlockput _ | .idup _ | .iupdate _ | .itrunc _
  | .setFields _ _ | .kfree _ | .freeproc _ | .childOfile _ _ _ | .childCwd _ _ | .zombie => Unit

variable {P F I α : Type} (H : Headers)

/-- A program of the kernel. -/
abbrev Kern (P F I α : Type) : Type := Prog (Op P F I) Answer α

namespace Kern

def argint (n : ℕ) : Kern P F I (Option (BitVec 32)) := .perform (Op.argint n)
def argaddr (n : ℕ) : Kern P F I (Option ℕ) := .perform (Op.argaddr n)
def argstr (n : ℕ) : Kern P F I (Option (List Char)) := .perform (Op.argstr n)
def fetchaddr (addr : ℕ) : Kern P F I (Option ℕ) := .perform (Op.fetchaddr addr)
def fetchstr (addr page : ℕ) : Kern P F I Bool := .perform (Op.fetchstr addr page)
def copyout (addr value : ℕ) : Kern P F I Bool := .perform (Op.copyout addr value)
def ofile (fd : ℕ) : Kern P F I (Option F) := .perform (Op.ofile fd)
def setOfile (fd : ℕ) (f : Option F) : Kern P F I Unit := .perform (Op.setOfile fd f)
def cwd : Kern P F I I := .perform Op.cwd
def setCwd (ip : Option I) : Kern P F I Unit := .perform (Op.setCwd ip)
def filealloc : Kern P F I (Option F) := .perform Op.filealloc
def filedup (f : F) : Kern P F I Unit := .perform (Op.filedup f)
def fileclose (f : F) : Kern P F I Unit := .perform (Op.fileclose f)
def fileread (f : F) (addr : ℕ) (n : BitVec 32) : Kern P F I Int := .perform (Op.fileread f addr n)
def filewrite (f : F) (addr : ℕ) (n : BitVec 32) :
    Kern P F I Int := .perform (Op.filewrite f addr n)
def filestat (f : F) (addr : ℕ) : Kern P F I Int := .perform (Op.filestat f addr)
def pipealloc : Kern P F I (Option (F × F)) := .perform Op.pipealloc
def setFile (f : F) (major : Option (BitVec 16)) (ip : I) (readable writable : Bool) :
    Kern P F I Unit := .perform (Op.setFile f major ip readable writable)
def beginOp : Kern P F I Unit := .perform Op.beginOp
def endOp : Kern P F I Unit := .perform Op.endOp
def namei (path : List Char) : Kern P F I (Option I) := .perform (Op.namei path)
def nameiparent (path : List Char) :
    Kern P F I (Option (I × List Char)) := .perform (Op.nameiparent path)
def ialloc (dev : ℕ) (type : BitVec 16) : Kern P F I (Option I) := .perform (Op.ialloc dev type)
def ilock (ip : I) : Kern P F I Unit := .perform (Op.ilock ip)
def iunlock (ip : I) : Kern P F I Unit := .perform (Op.iunlock ip)
def iput (ip : I) : Kern P F I Unit := .perform (Op.iput ip)
def iunlockput (ip : I) : Kern P F I Unit := .perform (Op.iunlockput ip)
def idup (ip : I) : Kern P F I Unit := .perform (Op.idup ip)
def iupdate (ip : I) : Kern P F I Unit := .perform (Op.iupdate ip)
def itrunc (ip : I) : Kern P F I Unit := .perform (Op.itrunc ip)
def dirlookup (dp : I) (name : List Char) :
    Kern P F I (Option (I × ℕ)) := .perform (Op.dirlookup dp name)
def dirlink (dp : I) (name : List Char) (inum : ℕ) :
    Kern P F I Bool := .perform (Op.dirlink dp name inum)
def readi (ip : I) (off : ℕ) : Kern P F I (ℕ × BitVec 16) := .perform (Op.readi ip off)
def writei (ip : I) (off : ℕ) : Kern P F I ℕ := .perform (Op.writei ip off)
def dev (ip : I) : Kern P F I ℕ := .perform (Op.dev ip)
def inum (ip : I) : Kern P F I ℕ := .perform (Op.inum ip)
def fields (ip : I) : Kern P F I Fields := .perform (Op.fields ip)
def setFields (ip : I) (fields : Fields) : Kern P F I Unit := .perform (Op.setFields ip fields)
def kalloc : Kern P F I (Option ℕ) := .perform Op.kalloc
def kfree (page : ℕ) : Kern P F I Unit := .perform (Op.kfree page)
def exec (path : List Char) (argv : List ℕ) : Kern P F I Int := .perform (Op.exec path argv)
def allocproc : Kern P F I (Option P) := .perform Op.allocproc
def uvmcopy (np : P) : Kern P F I Bool := .perform (Op.uvmcopy np)
def freeproc (np : P) : Kern P F I Unit := .perform (Op.freeproc np)
def childOfile (np : P) (fd : ℕ) (f : F) : Kern P F I Unit := .perform (Op.childOfile np fd f)
def childCwd (np : P) (ip : I) : Kern P F I Unit := .perform (Op.childCwd np ip)
def runnable (np : P) : Kern P F I Int := .perform (Op.runnable np)
def zombie : Kern P F I Unit := .perform Op.zombie

end Kern

open Kern

/-- Nothing comes after a panic. -/
def panic (message : String) : Kern P F I α := .call (Op.panic message) nofun

/-! ## Descriptors -/

/-- `argfd(n, pfd, pf)`. -/
def argfd (n : ℕ) : Kern P F I (Option (ℕ × F)) := do
  match ← argint n with
  | none => return none
  | some fd =>
      if fd.toInt < 0 ∨ (H.nofile : Int) ≤ fd.toInt then return none
      else
        match ← ofile fd.toInt.toNat with
        | none => return none
        | some f => return some (fd.toInt.toNat, f)

/-- The loop of `fdalloc` over the descriptors from `fd` on. -/
def fdallocLoop (f : F) : (count fd : ℕ) → Kern P F I (Option ℕ)
  | 0, _ => return none
  | count + 1, fd => do
      match ← ofile fd with
      | none => do
          setOfile fd (some f)
          return some fd
      | some _ => fdallocLoop f count (fd + 1)

/-- `fdalloc(f)`. -/
def fdalloc (f : F) : Kern P F I (Option ℕ) := fdallocLoop f H.nofile 0

def sysDup : Kern P F I Int := do
  match ← argfd H 0 with
  | none => return -1
  | some (_, f) =>
      match ← fdalloc H f with
      | none => return -1
      | some fd => do
          filedup f
          return fd

def sysRead : Kern P F I Int := do
  match ← argfd H 0 with
  | none => return -1
  | some (_, f) =>
      match ← argint 2 with
      | none => return -1
      | some n =>
          match ← argaddr 1 with
          | none => return -1
          | some p => fileread f p n

def sysWrite : Kern P F I Int := do
  match ← argfd H 0 with
  | none => return -1
  | some (_, f) =>
      match ← argint 2 with
      | none => return -1
      | some n =>
          match ← argaddr 1 with
          | none => return -1
          | some p => filewrite f p n

def sysClose : Kern P F I Int := do
  match ← argfd H 0 with
  | none => return -1
  | some (fd, f) => do
      setOfile fd none
      fileclose f
      return 0

def sysFstat : Kern P F I Int := do
  match ← argfd H 0 with
  | none => return -1
  | some (_, f) =>
      match ← argaddr 1 with
      | none => return -1
      | some st => filestat f st

/-- `sys_pipe`; a descriptor is copied out as an `int`. -/
def sysPipe : Kern P F I Int := do
  match ← argaddr 0 with
  | none => return -1
  | some fdarray =>
      match ← pipealloc with
      | none => return -1
      | some ends =>
          match ← fdalloc H ends.1 with
          | none => do
              fileclose ends.1
              fileclose ends.2
              return -1
          | some fd0 =>
              match ← fdalloc H ends.2 with
              | none => do
                  setOfile fd0 none
                  fileclose ends.1
                  fileclose ends.2
                  return -1
              | some fd1 => do
                  let ok ← copyout fdarray fd0
                  let ok ← if ok then copyout ((fdarray + 4) % 2 ^ 64) fd1 else pure false
                  if ok then return 0
                  else do
                    setOfile fd0 none
                    setOfile fd1 none
                    fileclose ends.1
                    fileclose ends.2
                    return -1

/-! ## Names -/

/-- `bad` in `sys_link`. -/
def sysLinkBad (ip : I) : Kern P F I Int := do
  ilock ip
  let d ← fields ip
  setFields ip { d with nlink := d.nlink - 1 }
  iupdate ip
  iunlockput ip
  endOp
  return -1

/-- `sys_link` from the place where the link count has been raised. -/
def sysLinkName (ip : I) (new : List Char) : Kern P F I Int := do
  match ← nameiparent new with
  | none => sysLinkBad ip
  | some (dp, name) => do
      ilock dp
      let dpDev ← dev dp
      let ipDev ← dev ip
      let ok ← if dpDev ≠ ipDev then pure false else do
        let i ← inum ip
        dirlink dp name i
      if ok then do
        iunlockput dp
        iput ip
        endOp
        return 0
      else do
        iunlockput dp
        sysLinkBad ip

def sysLink : Kern P F I Int := do
  match ← argstr 0 with
  | none => return -1
  | some old =>
      match ← argstr 1 with
      | none => return -1
      | some new => do
          beginOp
          match ← namei old with
          | none => do
              endOp
              return -1
          | some ip => do
              ilock ip
              let d ← fields ip
              if d.type = H.tDir then do
                iunlockput ip
                endOp
                return -1
              else do
                setFields ip { d with nlink := d.nlink + 1 }
                iupdate ip
                iunlock ip
                sysLinkName ip new

/-- The loop of `isdirempty`, which looks at the size again in each round; the fuel is a bound
on the rounds that are left. -/
def isdiremptyLoop (dp : I) : (fuel off : ℕ) → Kern P F I Bool
  | 0, _ => return true
  | fuel + 1, off => do
      let d ← fields dp
      if off < d.size then do
        let (n, i) ← readi dp off
        if n ≠ direntSize then panic "isdirempty: readi"
        else if i ≠ 0 then return false
        else isdiremptyLoop dp fuel (off + direntSize)
      else return true

/-- `isdirempty(dp)`. -/
def isdirempty (dp : I) : Kern P F I Bool := do
  let d ← fields dp
  isdiremptyLoop dp d.size (2 * direntSize)

/-- `bad` in `sys_unlink`. -/
def sysUnlinkBad (dp : I) : Kern P F I Int := do
  iunlockput dp
  endOp
  return -1

/-- `sys_unlink` from the place where the entry is taken out of the directory. -/
def sysUnlinkEntry (dp ip : I) (off : ℕ) : Kern P F I Int := do
  let n ← writei dp off
  if n ≠ direntSize then panic "unlink: writei"
  else do
    let d ← fields ip
    if d.type = H.tDir then do
      let dpFields ← fields dp
      setFields dp { dpFields with nlink := dpFields.nlink - 1 }
      iupdate dp
    iunlockput dp
    let d ← fields ip
    setFields ip { d with nlink := d.nlink - 1 }
    iupdate ip
    iunlockput ip
    endOp
    return 0

def sysUnlink : Kern P F I Int := do
  match ← argstr 0 with
  | none => return -1
  | some path => do
      beginOp
      match ← nameiparent path with
      | none => do
          endOp
          return -1
      | some (dp, name) => do
          ilock dp
          if name = ".".toList ∨ name = "..".toList then sysUnlinkBad dp
          else
            match ← dirlookup dp name with
            | none => sysUnlinkBad dp
            | some (ip, off) => do
                ilock ip
                let d ← fields ip
                if d.nlink.toInt < 1 then panic "unlink: nlink < 1"
                else do
                  let keep ← if d.type = H.tDir then do
                      let empty ← isdirempty ip
                      pure !empty
                    else pure false
                  if keep then do
                    iunlockput ip
                    sysUnlinkBad dp
                  else sysUnlinkEntry H dp ip off

/-- `create(path, type, major, minor)`. -/
def create (path : List Char) (type major minor : BitVec 16) : Kern P F I (Option I) := do
  match ← nameiparent path with
  | none => return none
  | some (dp, name) => do
      ilock dp
      match ← dirlookup dp name with
      | some (ip, _) => do
          iunlockput dp
          ilock ip
          let d ← fields ip
          if type = H.tFile ∧ (d.type = H.tFile ∨ d.type = H.tDevice) then return some ip
          else do
            iunlockput ip
            return none
      | none => do
          let dpDev ← dev dp
          match ← ialloc dpDev type with
          | none => panic "create: ialloc"
          | some ip => do
              ilock ip
              let d ← fields ip
              setFields ip { d with major := major, minor := minor, nlink := 1 }
              iupdate ip
              if type = H.tDir then do
                let dpFields ← fields dp
                setFields dp { dpFields with nlink := dpFields.nlink + 1 }
                iupdate dp
                let i ← inum ip
                let ok ← dirlink ip ".".toList i
                let ok ← if ok then do
                    let i ← inum dp
                    dirlink ip "..".toList i
                  else pure false
                if ok then pure () else panic "create dots"
              let i ← inum ip
              let ok ← dirlink dp name i
              if ok then do
                iunlockput dp
                return some ip
              else panic "create: dirlink"

/-- The end of `sys_open`, with the locked inode. -/
def sysOpenInode (ip : I) (omode : BitVec 32) : Kern P F I Int := do
  let d ← fields ip
  if d.type = H.tDevice ∧ (d.major.toInt < 0 ∨ (H.ndev : Int) ≤ d.major.toInt) then do
    iunlockput ip
    endOp
    return -1
  else
    match ← filealloc with
    | none => do
        iunlockput ip
        endOp
        return -1
    | some f =>
        match ← fdalloc H f with
        | none => do
            fileclose f
            iunlockput ip
            endOp
            return -1
        | some fd => do
            let d ← fields ip
            setFile f (if d.type = H.tDevice then some d.major else none) ip
              (omode &&& H.oWronly = 0) (omode &&& H.oWronly ≠ 0 ∨ omode &&& H.oRdwr ≠ 0)
            if omode &&& H.oTrunc ≠ 0 ∧ d.type = H.tFile then itrunc ip
            iunlock ip
            endOp
            return fd

def sysOpen : Kern P F I Int := do
  match ← argstr 0 with
  | none => return -1
  | some path =>
      match ← argint 1 with
      | none => return -1
      | some omode => do
          beginOp
          if omode &&& H.oCreate ≠ 0 then
            match ← create H path H.tFile 0 0 with
            | none => do
                endOp
                return -1
            | some ip => sysOpenInode H ip omode
          else
            match ← namei path with
            | none => do
                endOp
                return -1
            | some ip => do
                ilock ip
                let d ← fields ip
                if d.type = H.tDir ∧ omode ≠ H.oRdonly then do
                  iunlockput ip
                  endOp
                  return -1
                else sysOpenInode H ip omode

/-- What `sys_mkdir` and `sys_mknod` do with the result of `create`. -/
def created (result : Option I) : Kern P F I Int := do
  match result with
  | none => do
      endOp
      return -1
  | some ip => do
      iunlockput ip
      endOp
      return 0

def sysMkdir : Kern P F I Int := do
  beginOp
  match ← argstr 0 with
  | none => created none
  | some path => do
      let ip ← create H path H.tDir 0 0
      created ip

def sysMknod : Kern P F I Int := do
  beginOp
  match ← argstr 0 with
  | none => created none
  | some path =>
      match ← argint 1 with
      | none => created none
      | some major =>
          match ← argint 2 with
          | none => created none
          | some minor => do
              let ip ← create H path H.tDevice (major.setWidth 16) (minor.setWidth 16)
              created ip

def sysChdir : Kern P F I Int := do
  beginOp
  let result ← (do
    match ← argstr 0 with
    | none => return none
    | some path => namei path)
  match result with
  | none => do
      endOp
      return -1
  | some ip => do
      ilock ip
      let d ← fields ip
      if d.type ≠ H.tDir then do
        iunlockput ip
        endOp
        return -1
      else do
        iunlock ip
        let old ← cwd
        iput old
        endOp
        setCwd (some ip)
        return 0

/-! ## Programs -/

/-- Freeing the pages of `argv`. -/
def freeArgv (argv : List ℕ) : Kern P F I Unit := argv.forM fun page => kfree page

/-- The loop of `sys_exec` over the arguments from the one after `argv` on: whether all of them
have come, and their pages. -/
def sysExecLoop (uargv : ℕ) : (count : ℕ) → (argv : List ℕ) → Kern P F I (Bool × List ℕ)
  | 0, argv => return (false, argv)
  | count + 1, argv => do
      match ← fetchaddr ((uargv + 8 * argv.length) % 2 ^ 64) with
      | none => return (false, argv)
      | some uarg =>
          if uarg = 0 then return (true, argv)
          else
            match ← kalloc with
            | none => return (false, argv)
            | some page => do
                let ok ← fetchstr uarg page
                if ok then sysExecLoop uargv count (argv ++ [page])
                else return (false, argv ++ [page])

def sysExec : Kern P F I Int := do
  match ← argstr 0 with
  | none => return -1
  | some path =>
      match ← argaddr 1 with
      | none => return -1
      | some uargv => do
          let (ok, argv) ← sysExecLoop uargv H.maxArg []
          if ok then do
            let ret ← exec path argv
            freeArgv argv
            return ret
          else do
            freeArgv argv
            return -1

/-- A round of the loop of `fork` over the descriptors. -/
def forkFile (np : P) (fd : ℕ) : Kern P F I Unit := do
  match ← ofile fd with
  | none => return ()
  | some f => do
      filedup f
      childOfile np fd f

/-- `fork`, as far as files go. -/
def fork : Kern P F I Int := do
  match ← allocproc with
  | none => return -1
  | some np => do
      let ok ← uvmcopy np
      if ok then do
        (List.range H.nofile).forM (forkFile np)
        let ip ← cwd
        idup ip
        childCwd np ip
        runnable np
      else do
        freeproc np
        return -1

/-- A round of the loop of `exit` over the descriptors. -/
def exitFile (fd : ℕ) : Kern P F I Unit := do
  match ← ofile fd with
  | none => return ()
  | some f => do
      fileclose f
      setOfile fd none

/-- `exit` of a process other than the first one, as far as files go. -/
def exit : Kern P F I Unit := do
  (List.range H.nofile).forM exitFile
  beginOp
  let ip ← cwd
  iput ip
  endOp
  setCwd none
  zombie

end OperateSystem.Syscall

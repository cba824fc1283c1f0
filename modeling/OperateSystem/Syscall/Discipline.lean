import Mathlib.Data.Multiset.Filter
import Mathlib.Data.Multiset.Range
import OperateSystem.Syscall.Handlers

/-!
# What the handlers hold

A handler holds references to files and inodes, locks of inodes, pages, and a place in a
transaction.  The contract says what it has to hold for each of its calls.  Whatever the
calls answer, every handler keeps to it on all of its paths, and ends with nothing in hand
but the files of its descriptors and its current directory.
-/

namespace OperateSystem.Syscall

open OperateSystem.Session Kern

/-- A child that `fork` is making. -/
structure Embryo (F I : Type) where
  ofile : ℕ → Option F
  cwd : Option I

/-- What a process has: its descriptors and its directory, its references to files and inodes,
the files that have no type yet, the inodes it has locked, latest first, the entries it has
found in a locked directory, the locked inodes with changes that are not in the log, whether
it is in a transaction, and the pages it has allocated. -/
structure Own (P F I : Type) where
  alive : Bool
  ofile : ℕ → Option F
  cwd : Option I
  held : Multiset F
  fresh : Multiset F
  inodes : Multiset I
  locked : List I
  entries : List I
  dirty : List I
  tx : Bool
  pages : Multiset ℕ
  child : Option (P × Embryo F I)

variable {P F I : Type} [DecidableEq F] [DecidableEq I] {α : Type} (H : Headers)

/-- The files of the descriptors. -/
def files (n : ℕ) (ofile : ℕ → Option F) : Multiset F := (Multiset.range n).filterMap ofile

/-- Whether a name is neither `.` nor `..`. -/
def Proper (name : List Char) : Prop := name ≠ ".".toList ∧ name ≠ "..".toList

instance (name : List Char) : Decidable (Proper name) := inferInstanceAs (Decidable (_ ∧ _))

namespace Own

/-- The calls that a process may make with what it has. -/
def allows (own : Own P F I) : Op P F I → Prop
  | .argint _ | .argaddr _ | .argstr _ | .fetchaddr _ | .copyout _ _ | .setCwd _ | .filealloc
  | .pipealloc | .kalloc | .panic _ => True
  | .ofile fd | .setOfile fd _ => fd < H.nofile
  | .cwd => own.cwd ≠ none
  | .filedup f => f ∈ own.held
  | .fileclose f => f ∈ own.held ∧ (own.tx = false ∧ own.locked = [] ∨ f ∈ own.fresh)
  | .fileread f _ _ | .filewrite f _ _ | .filestat f _ =>
      f ∈ own.held ∧ own.tx = false ∧ own.locked = []
  | .setFile f _ ip _ _ => f ∈ own.held ∧ f ∈ own.fresh ∧ ip ∈ own.inodes
  | .beginOp => own.tx = false ∧ own.locked = []
  | .endOp => own.tx = true ∧ own.locked = [] ∧ own.dirty = []
  | .namei _ | .nameiparent _ => own.tx = true ∧ own.locked = []
  | .ialloc _ _ => own.tx = true
  | .ilock ip => ip ∈ own.inodes ∧ ip ∉ own.locked ∧
      (own.locked = [] ∨ own.locked.length = 1 ∧ ip ∈ own.entries)
  | .iunlock ip => ip ∈ own.locked ∧ ip ∉ own.dirty
  | .iput ip => own.tx = true ∧ ip ∈ own.inodes ∧ own.locked = []
  | .iunlockput ip => own.tx = true ∧ ip ∈ own.inodes ∧ ip ∈ own.locked ∧ ip ∉ own.dirty
  | .idup ip | .dev ip | .inum ip => ip ∈ own.inodes
  | .dirlookup ip _ | .readi ip _ | .fields ip => ip ∈ own.locked
  | .iupdate ip | .itrunc ip | .dirlink ip _ _ | .writei ip _ | .setFields ip _ =>
      own.tx = true ∧ ip ∈ own.locked
  | .fetchstr _ page | .kfree page => page ∈ own.pages
  | .exec _ argv => own.tx = false ∧ own.locked = [] ∧ ∀ page ∈ argv, page ∈ own.pages
  | .allocproc => own.child = none
  | .uvmcopy np => ∃ e, own.child = some (np, e)
  | .freeproc np => ∃ e, own.child = some (np, e) ∧ (∀ fd, e.ofile fd = none) ∧ e.cwd = none
  | .childOfile np fd f => ∃ e, own.child = some (np, e) ∧ e.ofile fd = none ∧ fd < H.nofile ∧
      f ∈ own.held
  | .childCwd np ip => ∃ e, own.child = some (np, e) ∧ e.cwd = none ∧ ip ∈ own.inodes
  | .runnable np => ∃ e, own.child = some (np, e) ∧ e.cwd ≠ none
  | .zombie => (∀ fd, fd < H.nofile → own.ofile fd = none) ∧ own.cwd = none ∧ own.held = 0 ∧
      own.fresh = 0 ∧ own.inodes = 0 ∧ own.locked = [] ∧ own.entries = [] ∧ own.dirty = [] ∧
      own.tx = false ∧ own.pages = 0 ∧ own.child = none

/-- The answers that can come.  An inode that `ialloc` finds is not in use, and a directory has
itself under `.` and `..` only. -/
def legal (own : Own P F I) : (op : Op P F I) → Answer op → Prop
  | .ofile fd, answer => answer = own.ofile fd
  | .cwd, answer => own.cwd = some answer
  | .ialloc _ _, answer => ∀ ip, answer = some ip → ip ∉ own.inodes
  | .dirlookup dp name, answer => ∀ ip off, answer = some (ip, off) → Proper name → ip ≠ dp
  | _, _ => True

/-- The lock of an inode is given up. -/
def unlock (own : Own P F I) (ip : I) : Own P F I :=
  { own with locked := own.locked.erase ip, entries := [] }

/-- A reference to an inode, if there is one. -/
def refer (own : Own P F I) : Option I → Own P F I
  | some ip => { own with inodes := ip ::ₘ own.inodes }
  | none => own

/-- A reference to an entry of a locked directory, or to an inode that is to become one. -/
def find (own : Own P F I) : Option I → Own P F I
  | some ip => { own with inodes := ip ::ₘ own.inodes, entries := ip :: own.entries }
  | none => own

/-- A new file, if there is one. -/
def openFile (own : Own P F I) : Option F → Own P F I
  | some f => { own with held := f ::ₘ own.held, fresh := f ::ₘ own.fresh }
  | none => own

/-- The two files of a new pipe, if there is one. -/
def openPipe (own : Own P F I) : Option (F × F) → Own P F I
  | some (rf, wf) => { own with held := rf ::ₘ wf ::ₘ own.held }
  | none => own

/-- A page, if there is one. -/
def addPage (own : Own P F I) : Option ℕ → Own P F I
  | some page => { own with pages := page ::ₘ own.pages }
  | none => own

/-- A child without files, if there is a free entry. -/
def conceive (own : Own P F I) : Option P → Own P F I
  | some np => { own with child := some (np, ⟨fun _ => none, none⟩) }
  | none => own

/-- What a process has after a call. -/
def after (own : Own P F I) : (op : Op P F I) → Answer op → Own P F I
  | .setOfile fd f, _ => { own with ofile := Function.update own.ofile fd f }
  | .setCwd ip, _ => { own with cwd := ip }
  | .filealloc, answer => own.openFile answer
  | .filedup f, _ => { own with held := f ::ₘ own.held }
  | .fileclose f, _ => { own with held := own.held.erase f, fresh := own.fresh.erase f }
  | .pipealloc, answer => own.openPipe answer
  | .setFile f _ ip _ _, _ =>
      { own with fresh := own.fresh.erase f, inodes := own.inodes.erase ip }
  | .beginOp, _ => { own with tx := true }
  | .endOp, _ => { own with tx := false }
  | .namei _, answer => own.refer answer
  | .nameiparent _, answer => own.refer (answer.map Prod.fst)
  | .ialloc _ _, answer => own.find answer
  | .dirlookup _ name, answer =>
      if Proper name then own.find (answer.map Prod.fst) else own.refer (answer.map Prod.fst)
  | .ilock ip, _ => { own with locked := ip :: own.locked }
  | .iunlock ip, _ => own.unlock ip
  | .iput ip, _ => { own with inodes := own.inodes.erase ip }
  | .iunlockput ip, _ => { own.unlock ip with inodes := own.inodes.erase ip }
  | .idup ip, _ => { own with inodes := ip ::ₘ own.inodes }
  | .iupdate ip, _ => { own with dirty := own.dirty.filter fun jp => jp ≠ ip }
  | .setFields ip _, _ => { own with dirty := ip :: own.dirty }
  | .kalloc, answer => own.addPage answer
  | .kfree page, _ => { own with pages := own.pages.erase page }
  | .allocproc, answer => own.conceive answer
  | .freeproc _, _ => { own with child := none }
  | .childOfile np fd f, _ => { own with
      held := own.held.erase f
      child := own.child.map fun child =>
        (np, { child.2 with ofile := Function.update child.2.ofile fd (some f) }) }
  | .childCwd np ip, _ => { own with
      inodes := own.inodes.erase ip
      child := own.child.map fun child => (np, { child.2 with cwd := some ip }) }
  | .runnable _, _ => { own with child := none }
  | .zombie, _ => { own with alive := false, ofile := fun _ => none }
  | _, _ => own

end Own

/-- The contract of the handlers. -/
def contract : Contract (Op P F I) Answer (Own P F I) where
  permits own op := own.alive = true ∧ own.allows H op
  legal := Own.legal
  after := Own.after

/-- A process outside of handlers, with the files of its descriptors and its directory. -/
def calm (ofile : ℕ → Option F) (cwd : I) : Own P F I where
  alive := true
  ofile := ofile
  cwd := some cwd
  held := files H.nofile ofile
  fresh := 0
  inodes := {cwd}
  locked := []
  entries := []
  dirty := []
  tx := false
  pages := 0
  child := none

/-- An entry of the process table without a process, or with one that has exited. -/
def vacant : Own P F I where
  alive := false
  ofile _ := none
  cwd := none
  held := 0
  fresh := 0
  inodes := 0
  locked := []
  entries := []
  dirty := []
  tx := false
  pages := 0
  child := none

/-- The first descriptor that is not in use. -/
structure Lowest (n : ℕ) (ofile : ℕ → Option F) (fd : ℕ) : Prop where
  lt : fd < n
  free : ofile fd = none
  below : ∀ k, k < fd → ofile k ≠ none

attribute [simp] argint argaddr argstr fetchaddr fetchstr copyout ofile setOfile cwd setCwd
  filealloc filedup fileclose fileread filewrite filestat pipealloc setFile beginOp endOp namei
  nameiparent ialloc ilock iunlock iput iunlockput idup iupdate itrunc dirlookup dirlink readi
  writei dev inum fields setFields kalloc kfree exec allocproc uvmcopy freeproc childOfile
  childCwd runnable zombie Own.allows Own.legal Own.after Own.unlock Own.refer Own.find
  Own.openFile Own.openPipe Own.addPage Own.conceive Prog.meets_ret Prog.perform

section Files

variable {n fd : ℕ} {ofile : ℕ → Option F} {f : F}

omit [DecidableEq F] in
theorem mem_files : f ∈ files n ofile ↔ ∃ fd, fd < n ∧ ofile fd = some f := by
  rw [files, Multiset.mem_filterMap]
  simp only [Multiset.mem_range]

omit [DecidableEq F] in
theorem filterMap_congr {s : Multiset ℕ} {g g' : ℕ → Option F} (h : ∀ k ∈ s, g k = g' k) :
    s.filterMap g = s.filterMap g' := by
  induction s using Quotient.inductionOn with
  | h l => exact congrArg _ (List.filterMap_congr h)

omit [DecidableEq F] in
/-- The files of the descriptors other than `fd` do not depend on it. -/
theorem files_others (hfd : fd < n) (x : Option F) :
    files n (Function.update ofile fd x)
      = (x.map singleton).getD 0 + ((Multiset.range n).erase fd).filterMap ofile := by
  rw [files, ← Multiset.cons_erase (Multiset.mem_range.mpr hfd), Multiset.filterMap_cons,
    Function.update_self, Multiset.cons_erase (Multiset.mem_range.mpr hfd)]
  congr 1
  apply filterMap_congr
  intro k hk
  apply Function.update_of_ne
  rintro rfl
  exact Multiset.Nodup.notMem_erase (Multiset.nodup_range n) hk

omit [DecidableEq F] in
/-- A descriptor gets a file. -/
theorem files_set (hfd : fd < n) (hfree : ofile fd = none) :
    files n (Function.update ofile fd (some f)) = f ::ₘ files n ofile := by
  have hold : files n (Function.update ofile fd none) = _ := files_others hfd none
  rw [← hfree, Function.update_eq_self, hfree] at hold
  rw [files_others hfd, hold]
  simp

/-- A descriptor loses its file. -/
theorem files_clear (hfd : fd < n) (hfile : ofile fd = some f) :
    files n (Function.update ofile fd none) = (files n ofile).erase f := by
  have hold : files n (Function.update ofile fd (some f)) = _ := files_others hfd (some f)
  rw [← hfile, Function.update_eq_self, hfile] at hold
  rw [files_others hfd, hold]
  simp

omit [DecidableEq F] in
theorem files_none : files n (fun _ => (none : Option F)) = 0 := by
  apply Multiset.eq_zero_of_forall_notMem
  intro f hf
  obtain ⟨fd, -, hfd⟩ := mem_files.mp hf
  cases hfd

end Files

section Steps

variable {H} {post : α → Own P F I → Prop} {own : Own P F I} {ofile : ℕ → Option F} {c : I}

@[simp]
theorem contract_permits {op : Op P F I} :
    (contract H).permits own op ↔ own.alive = true ∧ own.allows H op := Iff.rfl

@[simp]
theorem contract_legal {op : Op P F I} {answer : Answer op} :
    (contract H).legal own op answer ↔ own.legal op answer := Iff.rfl

@[simp]
theorem contract_after {op : Op P F I} {answer : Answer op} :
    (contract H).after own op answer = own.after op answer := rfl

@[simp]
theorem meets_op {op : Op P F I} {next : Answer op → Kern P F I α} :
    (Prog.call op next).Meets (contract H) post own ↔ (own.alive = true ∧ own.allows H op) ∧
      ∀ answer, own.legal op answer → (next answer).Meets (contract H) post (own.after op answer) :=
  Iff.rfl

omit [DecidableEq F] [DecidableEq I] in
@[simp]
theorem panic_bind {β : Type} (message : String) (f : α → Kern P F I β) :
    ((panic message : Kern P F I α) >>= f) = panic message :=
  congrArg (Prog.call (Op.panic message)) (funext nofun)

@[simp]
theorem meets_panic (message : String) :
    (panic message : Kern P F I α).Meets (contract H) post own ↔ own.alive = true :=
  ⟨fun h => h.1.1, fun halive => ⟨⟨halive, trivial⟩, nofun⟩⟩

/-- What a process has inside a transaction, with references to inodes and locks. -/
def busy (H : Headers) (ofile : ℕ → Option F) (c : I) (inodes : Multiset I) (locked : List I) :
    Own P F I :=
  { calm H ofile c with tx := true, inodes := inodes, locked := locked }

/-- `argfd` finds the file of the descriptor that its argument is. -/
theorem argfd_logged (n : ℕ) (halive : own.alive = true)
    (log : List ((op : Op P F I) × Answer op)) :
    (argfd H n : Kern P F I _).Meets (contract H).logged (fun r s => s.1 = own ∧
      ∀ fd f, r = some (fd, f) → fd < H.nofile ∧ own.ofile fd = some f ∧
        ∃ arg : BitVec 32, Logged s.2 (.argint n) (some arg) ∧ arg.toInt = fd) (own, log) := by
  refine ⟨⟨halive, trivial⟩, ?_⟩
  rintro (_ | arg) -
  · exact ⟨rfl, nofun⟩
  · change Prog.Meets _ _ (ite _ _ _) (own, ⟨.argint n, some arg⟩ :: log)
    split
    · exact ⟨rfl, nofun⟩
    · rename_i hfd
      have hlt : arg.toInt.toNat < H.nofile := by omega
      refine ⟨⟨halive, hlt⟩, ?_⟩
      rintro (_ | f) hanswer
      · exact ⟨rfl, nofun⟩
      · refine ⟨rfl, ?_⟩
        rintro fd f' heq
        cases heq
        exact ⟨hlt, Eq.symm hanswer, arg, logged_self.cons, by omega⟩

/-- `argfd` finds the file of a descriptor. -/
theorem argfd_meets (n : ℕ) (halive : own.alive = true) : (argfd H n : Kern P F I _).Meets
    (contract H) (fun r own' => own' = own ∧ ∀ fd f, r = some (fd, f) →
      fd < H.nofile ∧ own.ofile fd = some f) own := by
  refine (argfd_logged n halive []).of_logged ?_
  rintro r own' log' ⟨hown, hfd⟩
  refine ⟨hown, fun fd f hr => ?_⟩
  obtain ⟨hlt, hfile, -⟩ := hfd fd f hr
  exact ⟨hlt, hfile⟩

theorem fdallocLoop_meets (f : F) {count fd : ℕ} (hcount : fd + count ≤ H.nofile)
    (halive : own.alive = true) : (fdallocLoop f count fd : Kern P F I _).Meets (contract H)
      (fun r own' => r = none ∧ own' = own ∨ ∃ k, r = some k ∧ fd ≤ k ∧ k < fd + count ∧
        own.ofile k = none ∧ (∀ j, fd ≤ j → j < k → own.ofile j ≠ none) ∧
        own' = { own with ofile := Function.update own.ofile k (some f) }) own := by
  induction count generalizing fd with
  | zero => exact Or.inl ⟨rfl, rfl⟩
  | succ count ih =>
      have hlt : fd < H.nofile := by omega
      refine ⟨⟨halive, hlt⟩, ?_⟩
      rintro (_ | g) hanswer
      · refine ⟨⟨halive, hlt⟩, fun _ _ => Or.inr
          ⟨fd, rfl, le_refl fd, by omega, Eq.symm hanswer, ?_, rfl⟩⟩
        intro j hj hjfd
        omega
      · refine (ih (by omega)).mono ?_
        rintro r own' (hnone | ⟨k, hr, hle, hlt, hfree, hbelow, hown⟩)
        · exact Or.inl hnone
        · refine Or.inr ⟨k, hr, by omega, by omega, hfree, ?_, hown⟩
          intro j hj hjk
          rcases Nat.eq_or_lt_of_le hj with rfl | hlt
          · rw [← show some g = own.ofile fd from hanswer]
            exact Option.some_ne_none g
          · exact hbelow j hlt hjk

/-- `fdalloc` takes the first descriptor that is free, or there is none. -/
theorem fdalloc_meets (f : F) (halive : own.alive = true) : (fdalloc H f : Kern P F I _).Meets
    (contract H) (fun r own' => r = none ∧ own' = own ∨ ∃ fd, r = some fd ∧
      Lowest H.nofile own.ofile fd ∧
      own' = { own with ofile := Function.update own.ofile fd (some f) }) own := by
  refine (fdallocLoop_meets f (Nat.zero_add _).le halive).mono ?_
  rintro r own' (hnone | ⟨fd, hr, -, hlt, hfree, hbelow, hown⟩)
  · exact Or.inl hnone
  · exact Or.inr ⟨fd, hr, ⟨by omega, hfree, fun k hk => hbelow k (Nat.zero_le k) hk⟩, hown⟩

/-- A handler that has been refused has changed nothing. -/
theorem meets_refused {x : Kern P F I Int} {log : List ((op : Op P F I) × Answer op)}
    {logPost : Int → Own P F I × List ((op : Op P F I) × Answer op) → Prop}
    (hpost : ∀ log', logPost (-1) (calm H ofile c, log'))
    (h : x.Meets (contract H) (fun r own' => r = -1 ∧ own' = calm H ofile c) own) :
    x.Meets (contract H).logged logPost (own, log) := by
  refine h.logged ?_
  rintro r own' log' ⟨rfl, rfl⟩ -
  exact hpost log'

/-! ## Descriptors -/

/-- What `sys_dup` leaves: nothing has changed, or the first free descriptor names the file of the
descriptor that the argument is. -/
def Duplicated (H : Headers) (ofile : ℕ → Option F) (c : I) (r : Int)
    (s : Own P F I × List ((op : Op P F I) × Answer op)) : Prop :=
  r = -1 ∧ s.1 = calm H ofile c ∨ ∃ (arg : BitVec 32) (old fd : ℕ) (f : F),
    Logged s.2 (.argint 0) (some arg) ∧ arg.toInt = old ∧ old < H.nofile ∧ ofile old = some f ∧
    Lowest H.nofile ofile fd ∧ r = fd ∧ s.1 = calm H (Function.update ofile fd (some f)) c

/-- `sys_dup` gives a file of a descriptor a second one, the first that is free, or it changes
nothing. -/
theorem sysDup_meets : (sysDup H : Kern P F I Int).Meets (contract H).logged
    (Duplicated H ofile c) (calm H ofile c, []) := by
  refine Prog.meets_bind.mpr ((argfd_logged 0 rfl []).mono ?_)
  rintro (_ | ⟨old, f⟩) ⟨own, log⟩ ⟨hown, hfd⟩
  · exact Or.inl ⟨rfl, hown⟩
  · obtain ⟨hold, hfile, arg, harg, hvalue⟩ := hfd old f rfl
    dsimp only at hown harg
    subst hown
    have hrest : (fdalloc H f : Kern P F I _).Meets (contract H)
        (fun r own' => r = none ∧ own' = calm H ofile c ∨ ∃ fd, r = some fd ∧
          Lowest H.nofile ofile fd ∧ own' = { (calm H ofile c : Own P F I) with
            ofile := Function.update ofile fd (some f) }) (calm H ofile c) := fdalloc_meets f rfl
    refine Prog.meets_bind.mpr (hrest.logged ?_)
    rintro r own log' (⟨rfl, rfl⟩ | ⟨fd, rfl, hlowest, rfl⟩) hlog
    · exact Or.inl ⟨rfl, rfl⟩
    · refine ⟨⟨rfl, mem_files.mpr ⟨old, hold, hfile⟩⟩, fun _ _ => Or.inr ⟨arg, old, fd, f,
        (harg.suffix hlog).cons, hvalue, hold, hfile, hlowest, rfl, ?_⟩⟩
      have hset : files H.nofile (Function.update ofile fd (some f)) = f ::ₘ files H.nofile ofile :=
        files_set hlowest.lt hlowest.free
      simp [Contract.logged, calm, hset]

/-- The arguments of `sys_read` and `sys_write`, and the call that uses them. -/
theorem transfer_meets (transfer : F → ℕ → BitVec 32 → Kern P F I Int)
    (htransfer : ∀ f p n, f ∈ files H.nofile ofile → (transfer f p n).Meets (contract H)
      (fun _ own => own = calm H ofile c) (calm H ofile c)) :
    (do match ← argfd H 0 with
        | none => return -1
        | some (_, f) =>
            match ← argint 2 with
            | none => return -1
            | some n =>
                match ← argaddr 1 with
                | none => return -1
                | some p => transfer f p n : Kern P F I Int).Meets (contract H)
      (fun _ own => own = calm H ofile c) (calm H ofile c) := by
  refine Prog.meets_bind.mpr ((argfd_meets 0 rfl).mono ?_)
  rintro (_ | ⟨fd, f⟩) own ⟨rfl, hfd⟩
  · rfl
  · refine ⟨⟨rfl, trivial⟩, ?_⟩
    rintro (_ | n) -
    · rfl
    · refine ⟨⟨rfl, trivial⟩, ?_⟩
      rintro (_ | p) -
      · rfl
      · exact htransfer f p n (mem_files.mpr ⟨fd, hfd fd f rfl⟩)

/-- A handler that looks a file up for another function. -/
theorem sysRead_meets : (sysRead H : Kern P F I Int).Meets (contract H)
    (fun _ own => own = calm H ofile c) (calm H ofile c) :=
  transfer_meets fileread fun _ _ _ hheld => ⟨⟨rfl, hheld, rfl, rfl⟩, fun _ _ => rfl⟩

theorem sysWrite_meets : (sysWrite H : Kern P F I Int).Meets (contract H)
    (fun _ own => own = calm H ofile c) (calm H ofile c) :=
  transfer_meets filewrite fun _ _ _ hheld => ⟨⟨rfl, hheld, rfl, rfl⟩, fun _ _ => rfl⟩

theorem sysFstat_meets : (sysFstat H : Kern P F I Int).Meets (contract H)
    (fun _ own => own = calm H ofile c) (calm H ofile c) := by
  refine Prog.meets_bind.mpr ((argfd_meets 0 rfl).mono ?_)
  rintro (_ | ⟨fd, f⟩) own ⟨rfl, hfd⟩
  · rfl
  · have hheld := mem_files.mpr ⟨fd, hfd fd f rfl⟩
    refine ⟨⟨rfl, trivial⟩, ?_⟩
    rintro (_ | st) -
    · rfl
    · exact ⟨⟨rfl, hheld, rfl, rfl⟩, fun _ _ => rfl⟩

/-- `sys_close` clears a descriptor that is in use, or it changes nothing. -/
theorem sysClose_meets : (sysClose H : Kern P F I Int).Meets (contract H)
    (fun (r : Int) own => r = -1 ∧ own = calm H ofile c ∨ ∃ fd, fd < H.nofile ∧
      ofile fd ≠ none ∧ r = 0 ∧ own = calm H (Function.update ofile fd none) c)
    (calm H ofile c) := by
  refine Prog.meets_bind.mpr ((argfd_meets 0 rfl).mono ?_)
  rintro (_ | ⟨fd, f⟩) own ⟨rfl, hfd⟩
  · exact Or.inl ⟨rfl, rfl⟩
  · obtain ⟨hlt, hfile⟩ := hfd fd f rfl
    have hheld := mem_files.mpr ⟨fd, hlt, hfile⟩
    refine ⟨⟨rfl, hlt⟩, fun _ _ => ⟨⟨rfl, hheld, Or.inl ⟨rfl, rfl⟩⟩, fun _ _ => Or.inr
      ⟨fd, hlt, ?_, rfl, ?_⟩⟩⟩
    · rw [show ofile fd = some f from hfile]
      exact Option.some_ne_none f
    · have hclear : files H.nofile (Function.update ofile fd none)
          = (files H.nofile ofile).erase f := files_clear hlt hfile
      simp [calm, hclear]

/-- A process in `sys_pipe`, with the ends of a new pipe, and the descriptors so far. -/
def piped (H : Headers) (ofile : ℕ → Option F) (c : I) (rf wf : F) (fds : ℕ → Option F) :
    Own P F I :=
  { (calm H ofile c : Own P F I) with ofile := fds, held := rf ::ₘ wf ::ₘ files H.nofile ofile }

omit [DecidableEq F] [DecidableEq I] in
theorem files_both {rf wf : F} {fd0 fd1 : ℕ} (hfd0 : Lowest H.nofile ofile fd0)
    (hfd1 : Lowest H.nofile (Function.update ofile fd0 (some rf)) fd1) :
    files H.nofile (Function.update (Function.update ofile fd0 (some rf)) fd1 (some wf))
      = rf ::ₘ wf ::ₘ files H.nofile ofile := by
  rw [files_set hfd1.lt hfd1.free, files_set hfd0.lt hfd0.free, Multiset.cons_swap]

/-- The descriptors of a pipe are given back. -/
theorem giveBack_meets {rf wf : F} {fd0 fd1 : ℕ} (hfd0 : Lowest H.nofile ofile fd0)
    (hfd1 : Lowest H.nofile (Function.update ofile fd0 (some rf)) fd1) :
    (do
      setOfile fd0 none
      setOfile fd1 none
      fileclose rf
      fileclose wf
      return -1 : Kern P F I Int).Meets (contract H) (fun (r : Int) own =>
        r = -1 ∧ own = calm H ofile c) (piped H ofile c rf wf (Function.update
          (Function.update ofile fd0 (some rf)) fd1 (some wf))) := by
  have hfree0 : ofile fd0 = none := hfd0.free
  have hfree1 : Function.update ofile fd0 (some rf) fd1 = none := hfd1.free
  have hne : fd1 ≠ fd0 := by
    rintro rfl
    rw [Function.update_self] at hfree1
    cases hfree1
  rw [Function.update_of_ne hne] at hfree1
  have hclear : Function.update (Function.update (Function.update (Function.update ofile fd0
      (some rf)) fd1 (some wf)) fd0 none) fd1 none = ofile := by
    funext fd
    by_cases hfd : fd = fd0
    · subst hfd
      rw [Function.update_of_ne hne.symm, Function.update_self, hfree0]
    · by_cases hfd1 : fd = fd1
      · subst hfd1
        rw [Function.update_self, hfree1]
      · rw [Function.update_of_ne hfd1, Function.update_of_ne hfd, Function.update_of_ne hfd1,
          Function.update_of_ne hfd]
  have hlt0 := hfd0.lt
  have hlt1 := hfd1.lt
  simp [piped, calm, hclear, hlt0, hlt1]

/-- What `sys_pipe` leaves: nothing has changed, or the first two free descriptors name the two
ends of the pipe that `pipealloc` has made, and the user has been told both. -/
def PipeMade (H : Headers) (ofile : ℕ → Option F) (c : I) (r : Int)
    (s : Own P F I × List ((op : Op P F I) × Answer op)) : Prop :=
  r = -1 ∧ s.1 = calm H ofile c ∨ ∃ (fdarray fd0 fd1 : ℕ) (rf wf : F),
    Logged s.2 (.argaddr 0) (some fdarray) ∧ Logged s.2 .pipealloc (some (rf, wf)) ∧
    Lowest H.nofile ofile fd0 ∧ Lowest H.nofile (Function.update ofile fd0 (some rf)) fd1 ∧
    Logged s.2 (.copyout fdarray fd0) true ∧
    Logged s.2 (.copyout ((fdarray + 4) % 2 ^ 64) fd1) true ∧
    r = 0 ∧ s.1 = calm H (Function.update (Function.update ofile fd0 (some rf)) fd1 (some wf)) c

/-- `sys_pipe` takes the first two free descriptors for a new pipe, or it changes nothing. -/
theorem sysPipe_meets : (sysPipe H : Kern P F I Int).Meets (contract H).logged
    (PipeMade H ofile c) (calm H ofile c, []) := by
  refine ⟨⟨rfl, trivial⟩, ?_⟩
  rintro (_ | fdarray) -
  · exact Or.inl ⟨rfl, rfl⟩
  refine ⟨⟨rfl, trivial⟩, ?_⟩
  rintro (_ | ⟨rf, wf⟩) -
  · exact Or.inl ⟨rfl, rfl⟩
  change Prog.Meets _ _ (fdalloc H rf >>= _) (piped H ofile c rf wf ofile, _)
  refine Prog.meets_bind.mpr ((fdalloc_meets rf rfl).logged ?_)
  rintro r own log (⟨rfl, rfl⟩ | ⟨fd0, rfl, hfd0, rfl⟩) hlog
  · refine meets_refused (fun _ => Or.inl ⟨rfl, rfl⟩) ?_
    simp [piped, calm]
  refine Prog.meets_bind.mpr ((fdalloc_meets wf rfl).logged ?_)
  rintro r own log1 (⟨rfl, rfl⟩ | ⟨fd1, rfl, hfd1, rfl⟩) hlog1
  · have hfree : ofile fd0 = none := hfd0.free
    refine meets_refused (fun _ => Or.inl ⟨rfl, rfl⟩) ?_
    simp [piped, calm, hfd0.lt, ← hfree]
  have hback : ∀ log, Prog.Meets (contract H).logged (PipeMade H ofile c) (do
      setOfile fd0 none
      setOfile fd1 none
      fileclose rf
      fileclose wf
      return -1 : Kern P F I Int) (piped H ofile c rf wf (Function.update
          (Function.update ofile fd0 (some rf)) fd1 (some wf)), log) := fun log =>
    meets_refused (fun _ => Or.inl ⟨rfl, rfl⟩) (giveBack_meets hfd0 hfd1)
  refine ⟨⟨rfl, trivial⟩, ?_⟩
  rintro (_ | _) -
  · exact hback _
  refine ⟨⟨rfl, trivial⟩, ?_⟩
  rintro (_ | _) -
  · exact hback _
  have hends : Logged log1 (.pipealloc : Op P F I) (some (rf, wf)) :=
    (logged_self.suffix hlog).suffix hlog1
  have hargs : Logged log1 (.argaddr 0 : Op P F I) (some fdarray) :=
    (logged_self.cons.suffix hlog).suffix hlog1
  have hset : files H.nofile (Function.update (Function.update ofile fd0 (some rf)) fd1 (some wf))
      = rf ::ₘ wf ::ₘ files H.nofile ofile := files_both hfd0 hfd1
  refine Or.inr ⟨fdarray, fd0, fd1, rf, wf, hargs.cons.cons, hends.cons.cons, hfd0, hfd1,
    logged_self.cons, logged_self, rfl, ?_⟩
  simp [Contract.logged, piped, calm, hset]

/-! ## Names -/

theorem sysLinkBad_meets (ip : I) : (sysLinkBad ip : Kern P F I Int).Meets (contract H)
    (fun _ own => own = calm H ofile c) (busy H ofile c (ip ::ₘ {c}) []) := by
  simp [sysLinkBad, busy, calm]

theorem sysLinkName_meets (ip : I) (new : List Char) : (sysLinkName ip new : Kern P F I Int).Meets
    (contract H) (fun _ own => own = calm H ofile c) (busy H ofile c (ip ::ₘ {c}) []) := by
  have hbad : (sysLinkBad ip : Kern P F I Int).Meets (contract H)
      (fun _ own => own = calm H ofile c) (busy H ofile c (ip ::ₘ {c}) []) := sysLinkBad_meets ip
  simp [sysLinkName, busy, calm]
  rintro (_ | ⟨dp, name⟩)
  · exact hbad
  · simp [busy, calm] at hbad ⊢
    intro dpDev ipDev
    split <;> simp [hbad]

theorem sysLink_meets : (sysLink H : Kern P F I Int).Meets (contract H)
    (fun _ own => own = calm H ofile c) (calm H ofile c) := by
  simp [sysLink, calm]
  rintro (_ | old)
  · rfl
  · simp
    rintro (_ | new)
    · rfl
    · simp
      rintro (_ | ip)
      · simp
      · have hname : (sysLinkName ip new : Kern P F I Int).Meets (contract H)
            (fun _ own => own = calm H ofile c) (busy H ofile c (ip ::ₘ {c}) []) :=
          sysLinkName_meets ip new
        simp [busy, calm] at hname ⊢
        intro d
        split <;> simp [hname]

theorem isdiremptyLoop_meets (dp : I) (halive : own.alive = true) (hdp : dp ∈ own.locked)
    {fuel off : ℕ} : (isdiremptyLoop dp fuel off : Kern P F I Bool).Meets (contract H)
      (fun _ own' => own' = own) own := by
  induction fuel generalizing off with
  | zero => rfl
  | succ fuel ih =>
      refine ⟨⟨halive, hdp⟩, fun d _ => ?_⟩
      change Prog.Meets _ _ (ite _ _ _) own
      split
      · refine ⟨⟨halive, hdp⟩, fun answer _ => ?_⟩
        change Prog.Meets _ _ (ite _ _ _) own
        split
        · exact (meets_panic _).mpr halive
        · split
          · rfl
          · exact ih
      · rfl

theorem isdirempty_meets (dp : I) (halive : own.alive = true) (hdp : dp ∈ own.locked) :
    (isdirempty dp : Kern P F I Bool).Meets (contract H) (fun _ own' => own' = own) own :=
  ⟨⟨halive, hdp⟩, fun _ _ => isdiremptyLoop_meets dp halive hdp⟩

theorem sysUnlinkBad_meets (dp : I) (entries : List I) : (sysUnlinkBad dp : Kern P F I Int).Meets
    (contract H) (fun _ own => own = calm H ofile c)
    { busy H ofile c (dp ::ₘ {c}) [dp] with entries := entries } := by
  simp [sysUnlinkBad, busy, calm]

theorem sysUnlinkEntry_meets {dp ip : I} (hne : ip ≠ dp) (entries : List I) (off : ℕ) :
    (sysUnlinkEntry H dp ip off : Kern P F I Int).Meets
    (contract H) (fun _ own => own = calm H ofile c)
    { busy H ofile c (ip ::ₘ dp ::ₘ {c}) [ip, dp] with entries := entries } := by
  have herase : (ip ::ₘ dp ::ₘ {c} : Multiset I).erase dp = ip ::ₘ {c} := by
    rw [Multiset.cons_swap, Multiset.erase_cons_head]
  simp [sysUnlinkEntry, busy, calm]
  intro n
  split
  · simp
    intro d
    split <;> simp [hne, hne.symm, herase]
  · simp

theorem sysUnlink_meets : (sysUnlink H : Kern P F I Int).Meets (contract H)
    (fun _ own => own = calm H ofile c) (calm H ofile c) := by
  simp [sysUnlink, calm]
  rintro (_ | path)
  · rfl
  · simp
    rintro (_ | ⟨dp, name⟩)
    · simp
    · have hbad : ∀ entries, (sysUnlinkBad dp : Kern P F I Int).Meets (contract H)
          (fun _ own => own = calm H ofile c)
          { busy H ofile c (dp ::ₘ {c}) [dp] with entries := entries } := sysUnlinkBad_meets dp
      simp [busy, calm] at hbad ⊢
      split
      · exact hbad []
      · rename_i hproper
        have hname : Proper name := not_or.mp hproper
        simp [hname]
        rintro (_ | ⟨ip, off⟩) hlegal
        · exact hbad []
        · have hne : ip ≠ dp := hlegal ip off rfl
          have hentry : (sysUnlinkEntry H dp ip off : Kern P F I Int).Meets (contract H)
              (fun _ own => own = calm H ofile c)
              { busy H ofile c (ip ::ₘ dp ::ₘ {c}) [ip, dp] with entries := [ip] } :=
            sysUnlinkEntry_meets hne [ip] off
          simp [busy, calm] at hentry
          simp [hne]
          intro d
          split
          · simp
          · split
            · refine Prog.meets_bind.mpr ((isdirempty_meets ip rfl (by simp)).mono ?_)
              rintro empty own rfl
              split
              · simp [hbad]
              · exact hentry
            · exact hentry

/-- `create` gives a locked inode, or nothing. -/
theorem create_meets (path : List Char) (type major minor : BitVec 16) :
    (create H path type major minor : Kern P F I (Option I)).Meets (contract H)
      (fun r own => r = none ∧ own = busy H ofile c {c} [] ∨
        ∃ ip, r = some ip ∧ own = busy H ofile c (ip ::ₘ {c}) [ip]) (busy H ofile c {c} []) := by
  simp [create, busy, calm]
  rintro (_ | ⟨dp, name⟩)
  · simp
  · simp
    rintro (_ | ⟨ip, off⟩) -
    · simp
      intro dpDev
      rintro (_ | ip) hfree
      · simp
      · have hne : ip ≠ dp := by
          rintro rfl
          exact (hfree ip rfl).1 rfl
        have herase : (ip ::ₘ dp ::ₘ {c} : Multiset I).erase dp = ip ::ₘ {c} := by
          rw [Multiset.cons_swap, Multiset.erase_cons_head]
        simp [hne]
        intro d
        split
        · simp [hne, hne.symm, herase]
        · simp [hne, hne.symm, herase]
    · have herase : (ip ::ₘ dp ::ₘ {c} : Multiset I).erase dp = ip ::ₘ {c} := by
        rw [Multiset.cons_swap, Multiset.erase_cons_head]
      by_cases hname : Proper name
      · simp [hname, herase]
        intro d
        split <;> simp
      · simp [hname, herase]
        intro d
        split <;> simp

theorem created_meets {result : Option I} {own : Own P F I}
    (h : result = none ∧ own = busy H ofile c {c} [] ∨
      ∃ ip, result = some ip ∧ own = busy H ofile c (ip ::ₘ {c}) [ip]) :
    (created result : Kern P F I Int).Meets (contract H) (fun _ own => own = calm H ofile c)
      own := by
  rcases h with ⟨rfl, rfl⟩ | ⟨ip, rfl, rfl⟩
  · simp [created, busy, calm]
  · simp [created, busy, calm]

theorem sysMkdir_meets : (sysMkdir H : Kern P F I Int).Meets (contract H)
    (fun _ own => own = calm H ofile c) (calm H ofile c) := by
  refine ⟨⟨rfl, rfl, rfl⟩, fun _ _ => ⟨⟨rfl, trivial⟩, ?_⟩⟩
  rintro (_ | path) -
  · exact created_meets (Or.inl ⟨rfl, rfl⟩)
  · change Prog.Meets _ _ (create H path H.tDir 0 0 >>= _) (busy H ofile c {c} [])
    refine Prog.meets_bind.mpr ((create_meets path H.tDir 0 0).mono ?_)
    intro result own h
    exact created_meets h

theorem sysMknod_meets : (sysMknod H : Kern P F I Int).Meets (contract H)
    (fun _ own => own = calm H ofile c) (calm H ofile c) := by
  refine ⟨⟨rfl, rfl, rfl⟩, fun _ _ => ⟨⟨rfl, trivial⟩, ?_⟩⟩
  rintro (_ | path) -
  · exact created_meets (Or.inl ⟨rfl, rfl⟩)
  · refine ⟨⟨rfl, trivial⟩, ?_⟩
    rintro (_ | major) -
    · exact created_meets (Or.inl ⟨rfl, rfl⟩)
    · refine ⟨⟨rfl, trivial⟩, ?_⟩
      rintro (_ | minor) -
      · exact created_meets (Or.inl ⟨rfl, rfl⟩)
      · change Prog.Meets _ _ (create H path H.tDevice _ _ >>= _) (busy H ofile c {c} [])
        refine Prog.meets_bind.mpr ((create_meets path H.tDevice _ _).mono ?_)
        intro result own h
        exact created_meets h

/-- What `sys_open` leaves: nothing has changed, or the first free descriptor names the file that
`filealloc` has given. -/
def Opened (H : Headers) (ofile : ℕ → Option F) (c : I) (r : Int)
    (s : Own P F I × List ((op : Op P F I) × Answer op)) : Prop :=
  r = -1 ∧ s.1 = calm H ofile c ∨ ∃ (fd : ℕ) (f : F), Logged s.2 .filealloc (some f) ∧
    Lowest H.nofile ofile fd ∧ r = fd ∧ s.1 = calm H (Function.update ofile fd (some f)) c

/-- The end of `sys_open` gives a new file the first free descriptor, or it changes nothing. -/
theorem sysOpenInode_meets (ip : I) (omode : BitVec 32)
    (log : List ((op : Op P F I) × Answer op)) :
    (sysOpenInode H ip omode : Kern P F I Int).Meets (contract H).logged (Opened H ofile c)
      (busy H ofile c (ip ::ₘ {c}) [ip], log) := by
  refine ⟨⟨rfl, List.mem_cons_self⟩, fun d _ => ?_⟩
  change Prog.Meets _ _ (ite _ _ _) (busy H ofile c (ip ::ₘ {c}) [ip], _)
  split
  · refine meets_refused (fun _ => Or.inl ⟨rfl, rfl⟩) ?_
    simp [busy, calm]
  refine ⟨⟨rfl, trivial⟩, ?_⟩
  rintro (_ | f) -
  · refine meets_refused (fun _ => Or.inl ⟨rfl, rfl⟩) ?_
    change Prog.Meets _ _ (iunlockput ip >>= fun _ => endOp >>= fun _ => .ret (-1)) _
    simp [busy, calm]
  change Prog.Meets _ _ (fdalloc H f >>= _)
    ((busy H ofile c (ip ::ₘ {c}) [ip]).openFile (some f), _)
  refine Prog.meets_bind.mpr ((fdalloc_meets f rfl).logged ?_)
  rintro r own log' (⟨rfl, rfl⟩ | ⟨fd, rfl, hlowest, rfl⟩) hlog
  · refine meets_refused (fun _ => Or.inl ⟨rfl, rfl⟩) ?_
    simp [busy, calm]
  · have hset : files H.nofile (Function.update ofile fd (some f))
        = f ::ₘ files H.nofile ofile := files_set hlowest.lt hlowest.free
    refine Prog.Meets.logged (?_ : Prog.Meets _ (fun (r : Int) own => r = fd ∧
      own = calm H (Function.update ofile fd (some f)) c) _ _) ?_
    · simp [busy, calm, hset]
      intro d
      split <;> simp
    · rintro r own log'' ⟨hr, hown⟩ hlog'
      exact Or.inr ⟨fd, f, (logged_self.suffix hlog).suffix hlog', hlowest, hr, hown⟩

/-- `sys_open` gives a new file the first free descriptor, or it changes nothing. -/
theorem sysOpen_meets : (sysOpen H : Kern P F I Int).Meets (contract H).logged (Opened H ofile c)
    (calm H ofile c, []) := by
  refine ⟨⟨rfl, trivial⟩, ?_⟩
  rintro (_ | path) -
  · exact Or.inl ⟨rfl, rfl⟩
  refine ⟨⟨rfl, trivial⟩, ?_⟩
  rintro (_ | omode) -
  · exact Or.inl ⟨rfl, rfl⟩
  refine ⟨⟨rfl, rfl, rfl⟩, fun _ _ => ?_⟩
  change Prog.Meets _ _ (ite _ _ _) (busy H ofile c {c} [], _)
  split
  · refine Prog.meets_bind.mpr ((create_meets path H.tFile 0 0).logged ?_)
    rintro r own log (⟨rfl, rfl⟩ | ⟨ip, rfl, rfl⟩) -
    · exact ⟨⟨rfl, rfl, rfl, rfl⟩, fun _ _ => Or.inl ⟨rfl, rfl⟩⟩
    · exact sysOpenInode_meets ip omode log
  · refine ⟨⟨rfl, rfl, rfl⟩, ?_⟩
    rintro (_ | ip) -
    · exact ⟨⟨rfl, rfl, rfl, rfl⟩, fun _ _ => Or.inl ⟨rfl, rfl⟩⟩
    · refine ⟨⟨rfl, Multiset.mem_cons_self ip {c}, List.not_mem_nil, Or.inl rfl⟩, fun _ _ =>
        ⟨⟨rfl, List.mem_cons_self⟩, fun d _ => ?_⟩⟩
      change Prog.Meets _ _ (ite _ _ _) (busy H ofile c (ip ::ₘ {c}) [ip], _)
      split
      · refine meets_refused (fun _ => Or.inl ⟨rfl, rfl⟩) ?_
        simp [busy, calm]
      · exact sysOpenInode_meets ip omode _

theorem sysChdir_meets : (sysChdir H : Kern P F I Int).Meets (contract H)
    (fun (r : Int) own => r = -1 ∧ own = calm H ofile c ∨ ∃ ip, r = 0 ∧ own = calm H ofile ip)
    (calm H ofile c) := by
  simp [sysChdir, calm]
  rintro (_ | path)
  · simp
  · simp
    rintro (_ | ip)
    · simp
    · simp
      intro d
      split
      · simp
        rw [show (ip ::ₘ {c} : Multiset I) = c ::ₘ {ip} from Multiset.pair_comm ip c]
        exact Multiset.erase_cons_head c {ip}
      · simp

/-! ## Programs -/

theorem freeArgv_meets {argv : List ℕ} (own : Own P F I) (halive : own.alive = true) :
    (freeArgv argv : Kern P F I Unit).Meets (contract H)
      (fun _ own' => own' = { own with pages := 0 }) { own with pages := argv } := by
  induction argv with
  | nil => rfl
  | cons page argv ih =>
      refine ⟨⟨halive, List.mem_cons_self⟩, fun _ _ => ?_⟩
      change Prog.Meets _ _ _ { own with
        pages := (page ::ₘ (argv : Multiset ℕ)).erase page }
      rw [Multiset.erase_cons_head]
      exact ih

theorem sysExecLoop_meets (uargv : ℕ) {count : ℕ} {argv : List ℕ} {own : Own P F I}
    (halive : own.alive = true) : (sysExecLoop uargv count argv : Kern P F I _).Meets (contract H)
      (fun r own' => own' = { own with pages := r.2 }) { own with pages := argv } := by
  induction count generalizing argv with
  | zero => rfl
  | succ count ih =>
      refine ⟨⟨halive, trivial⟩, ?_⟩
      rintro (_ | uarg) -
      · rfl
      · change Prog.Meets _ _ (ite _ _ _) { own with pages := (argv : Multiset ℕ) }
        split
        · rfl
        · refine ⟨⟨halive, trivial⟩, ?_⟩
          rintro (_ | page) -
          · rfl
          · have hmore : page ::ₘ (argv : Multiset ℕ) = (argv ++ [page] : List ℕ) :=
              Multiset.coe_eq_coe.mpr (List.perm_append_singleton page argv).symm
            refine ⟨⟨halive, Multiset.mem_cons_self page (argv : Multiset ℕ)⟩, fun ok _ => ?_⟩
            change Prog.Meets _ _ (ite _ _ _) { own with
              pages := page ::ₘ (argv : Multiset ℕ) }
            rw [hmore]
            split
            · exact ih
            · rfl

/-- `sys_exec` frees every page that it has allocated for the arguments. -/
theorem sysExec_meets : (sysExec H : Kern P F I Int).Meets (contract H)
    (fun _ own => own = calm H ofile c) (calm H ofile c) := by
  refine ⟨⟨rfl, trivial⟩, ?_⟩
  rintro (_ | path) -
  · rfl
  · refine ⟨⟨rfl, trivial⟩, ?_⟩
    rintro (_ | uargv) -
    · rfl
    · have hloop : (sysExecLoop uargv H.maxArg [] : Kern P F I _).Meets (contract H)
          (fun r own => own = { calm H ofile c with pages := r.2 })
          { calm H ofile c with pages := (([] : List ℕ) : Multiset ℕ) } :=
        sysExecLoop_meets uargv rfl
      change Prog.Meets _ _ (sysExecLoop uargv H.maxArg [] >>= _)
        { calm H ofile c with pages := (([] : List ℕ) : Multiset ℕ) }
      refine Prog.meets_bind.mpr (hloop.mono ?_)
      rintro ⟨ok, argv⟩ own rfl
      have hfree : (freeArgv argv : Kern P F I Unit).Meets (contract H)
          (fun _ own => own = calm H ofile c)
          { calm H ofile c with pages := (argv : Multiset ℕ) } :=
        freeArgv_meets (calm H ofile c) rfl
      change Prog.Meets _ _ (ite _ _ _) { calm H ofile c with pages := (argv : Multiset ℕ) }
      split
      · refine ⟨⟨rfl, rfl, rfl, fun page hpage => hpage⟩, fun ret _ => ?_⟩
        change Prog.Meets _ _ (freeArgv argv >>= _) { calm H ofile c with
          pages := (argv : Multiset ℕ) }
        exact Prog.meets_bind.mpr (hfree.mono fun _ _ hcalm => hcalm)
      · exact Prog.meets_bind.mpr (hfree.mono fun _ _ hcalm => hcalm)

/-- The descriptors that the loops of `fork` and `exit` have been through. -/
def through (before : List ℕ) (ofile : ℕ → Option F) : ℕ → Option F := fun fd =>
  if fd ∈ before then ofile fd else none

/-- The descriptors that are left. -/
def ahead (before : List ℕ) (ofile : ℕ → Option F) : ℕ → Option F := fun fd =>
  if fd ∈ before then none else ofile fd

omit [DecidableEq F] in
theorem through_append {before : List ℕ} {fd : ℕ} (h : fd ∉ before) :
    through (before ++ [fd]) ofile = Function.update (through before ofile) fd (ofile fd) := by
  funext k
  by_cases hk : k = fd
  · subst hk
    rw [Function.update_self]
    exact if_pos (by simp)
  · rw [Function.update_of_ne hk]
    simp [through, hk]

omit [DecidableEq F] in
theorem ahead_append {before : List ℕ} {fd : ℕ} :
    ahead (before ++ [fd]) ofile = Function.update (ahead before ofile) fd none := by
  funext k
  by_cases hk : k = fd
  · subst hk
    rw [Function.update_self]
    exact if_pos (by simp)
  · rw [Function.update_of_ne hk]
    simp [ahead, hk]

/-- A loop over the descriptors comes to each of them once. -/
theorem range_split {n fd : ℕ} {before after : List ℕ}
    (h : List.range n = before ++ fd :: after) : fd ∉ before ∧ fd < n := by
  have hnodup := List.nodup_range (n := n)
  have hmem : fd ∈ List.range n := by
    rw [h]
    simp
  rw [h, List.nodup_append] at hnodup
  exact ⟨fun hbefore => hnodup.2.2 fd hbefore fd List.mem_cons_self rfl, List.mem_range.mp hmem⟩

/-- A parent in `fork`, with the child as far as it has come. -/
def parent (H : Headers) (ofile : ℕ → Option F) (c : I) (np : P) (child : ℕ → Option F) :
    Own P F I :=
  { (calm H ofile c : Own P F I) with child := some (np, ⟨child, none⟩) }

/-- A round gives the child the file of a descriptor, if there is one. -/
theorem forkFile_meets {np : P} {before : List ℕ} {fd : ℕ} (hbefore : fd ∉ before)
    (hfd : fd < H.nofile) : (forkFile np fd : Kern P F I Unit).Meets (contract H)
      (fun _ own => own = parent H ofile c np (through (before ++ [fd]) ofile))
      (parent H ofile c np (through before ofile)) := by
  have hnone : through before ofile fd = none := if_neg hbefore
  refine ⟨⟨rfl, hfd⟩, ?_⟩
  rintro (_ | f) hanswer
  · have hsame : through (before ++ [fd]) ofile = through before ofile := by
      rw [through_append hbefore, show ofile fd = none from Eq.symm hanswer, ← hnone,
        Function.update_eq_self]
    rw [hsame]
    rfl
  · have hfile : ofile fd = some f := Eq.symm hanswer
    have hheld : f ∈ files H.nofile ofile := mem_files.mpr ⟨fd, hfd, hfile⟩
    rw [through_append hbefore, hfile]
    refine ⟨⟨rfl, hheld⟩, fun _ _ =>
      ⟨⟨rfl, _, rfl, hnone, hfd, Multiset.mem_cons_of_mem hheld⟩, fun _ _ => ?_⟩⟩
    simp [parent, calm]

theorem fork_meets : (fork H : Kern P F I Int).Meets (contract H)
    (fun _ own => own = calm H ofile c) (calm H ofile c) := by
  refine ⟨⟨rfl, rfl⟩, ?_⟩
  rintro (_ | np) -
  · rfl
  · refine ⟨⟨rfl, ⟨_, rfl⟩⟩, fun ok _ => ?_⟩
    change Prog.Meets _ _ (ite _ _ _) (parent H ofile c np (through [] ofile))
    split
    · have hloop : ((List.range H.nofile).forM (forkFile np) : Kern P F I Unit).Meets (contract H)
          (fun _ own => own = parent H ofile c np (through (List.range H.nofile) ofile))
          (parent H ofile c np (through [] ofile)) := by
        refine Prog.meets_forM (fun before own => own = parent H ofile c np (through before ofile))
          rfl ?_ (fun own h => h)
        rintro before fd after own heq rfl
        obtain ⟨hbefore, hfd⟩ := range_split heq
        exact forkFile_meets hbefore hfd
      refine Prog.meets_bind.mpr (hloop.mono ?_)
      rintro _ own rfl
      simp [parent, calm]
    · exact ⟨⟨rfl, _, rfl, fun _ => rfl, rfl⟩, fun _ _ => rfl⟩

/-- A round closes the file of a descriptor, if there is one. -/
theorem exitFile_meets {before : List ℕ} {fd : ℕ} (hfd : fd < H.nofile) :
    (exitFile fd : Kern P F I Unit).Meets (contract H)
      (fun _ own => own = calm H (ahead (before ++ [fd]) ofile) c)
      (calm H (ahead before ofile) c) := by
  refine ⟨⟨rfl, hfd⟩, ?_⟩
  rintro (_ | f) hanswer
  · have hsame : ahead (before ++ [fd]) ofile = ahead before ofile := by
      rw [ahead_append, show (none : Option F) = ahead before ofile fd from hanswer,
        Function.update_eq_self]
    rw [hsame]
    rfl
  · have hfile : ahead before ofile fd = some f := Eq.symm hanswer
    have hheld : f ∈ files H.nofile (ahead before ofile) := mem_files.mpr ⟨fd, hfd, hfile⟩
    rw [ahead_append]
    refine ⟨⟨rfl, hheld, Or.inl ⟨rfl, rfl⟩⟩, fun _ _ => ⟨⟨rfl, hfd⟩, fun _ _ => ?_⟩⟩
    simp [calm, files_clear hfd hfile]

/-- `exit` closes every file and leaves nothing behind. -/
theorem exit_meets : (exit H : Kern P F I Unit).Meets (contract H)
    (fun _ own => own = vacant) (calm H ofile c) := by
  have hloop : ((List.range H.nofile).forM exitFile : Kern P F I Unit).Meets (contract H)
      (fun _ own => own = calm H (ahead (List.range H.nofile) ofile) c)
      (calm H (ahead [] ofile) c) := by
    refine Prog.meets_forM (fun before own => own = calm H (ahead before ofile) c) rfl ?_
      (fun own h => h)
    rintro before fd after own heq rfl
    exact exitFile_meets (range_split heq).2
  refine Prog.meets_bind.mpr (hloop.mono ?_)
  rintro _ own rfl
  have hclosed : ∀ fd, fd < H.nofile → ahead (List.range H.nofile) ofile fd = none :=
    fun fd hfd => if_pos (List.mem_range.mpr hfd)
  have hfiles : files H.nofile (ahead (List.range H.nofile) ofile) = 0 := by
    apply Multiset.eq_zero_of_forall_notMem
    intro f hf
    obtain ⟨fd, hfd, hfile⟩ := mem_files.mp hf
    rw [hclosed fd hfd] at hfile
    cases hfile
  simp [calm, vacant, hfiles]
  exact hclosed

end Steps

end OperateSystem.Syscall

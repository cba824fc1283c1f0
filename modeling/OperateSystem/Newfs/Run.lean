import OperateSystem.Core.Invariant
import OperateSystem.Newfs.Mount

/-!
# Runs of the file system

A run starts by mounting a blank device and is any sequence of operations and
remounts.  A remount is `newfs_destroy` followed by `newfs_init` in a new
process.  A call that crashes has no successor state.
-/

namespace OperateSystem.Newfs

open OperateSystem.Invariant

/-- One call, with the junk it finds in uninitialised memory. -/
inductive Op
  | mkdir (path : List Byte) (junk : Junk)
  | mknod (path : List Byte) (mode : Mode) (junk : Junk)
  | write (path buf : List Byte) (offset : Int)
  | read (path : List Byte) (size : ℕ) (offset : Int)
  | getattr (path : List Byte) (stat : Stat)
  | readdir (path : List Byte) (offset : Int)
  | remount (junk junk' : Junk)

/-- The state after a call. -/
def Op.run (fs : Fs) : Op → Option Fs
  | mkdir path junk => (Newfs.mkdir fs path junk).map Prod.fst
  | mknod path mode junk => (Newfs.mknod fs path mode junk).map Prod.fst
  | write path buf offset => (Newfs.write fs path buf offset).map Prod.fst
  | read path size offset => (Newfs.read fs path size offset).map Prod.fst
  | getattr path stat => (Newfs.getattr fs path stat).map Prod.fst
  | readdir path offset => (Newfs.readdir fs path offset).map Prod.fst
  | remount junk junk' => (destroy fs junk).bind fun disk => init disk junk'

def Step (fs fs' : Fs) : Prop := ∃ op : Op, op.run fs = some fs'

/-- The states of all runs on a blank device with IO unit `szIo`. -/
def Run (szIo : ℕ) (fs : Fs) : Prop :=
  ∃ junk fs₀, init (blankDisk szIo) junk = some fs₀ ∧ Reachable Step fs₀ fs

section Queries

variable {fs fs' : Fs} {path : List Byte}

/-- The operations that only look something up change what the lookup changes. -/
theorem read_some {size : ℕ} {offset ret : Int} {out : List Byte}
    (h : read fs path size offset = some (fs', ret, out)) :
    ∃ found, lookup fs path = some (fs', found) := by
  simp only [read, Option.bind_eq_bind] at h
  obtain ⟨⟨fs₁, found⟩, hlookup, h⟩ := Option.bind_eq_some_iff.mp h
  obtain ⟨isFind, -, h⟩ := Option.bind_eq_some_iff.mp h
  have hfs : fs' = fs₁ := by
    split at h
    · cases h
      rfl
    · obtain ⟨dentry, -, h⟩ := Option.bind_eq_some_iff.mp h
      obtain ⟨inode, -, h⟩ := Option.bind_eq_some_iff.mp h
      split at h
      · cases h
        rfl
      · split at h
        · cases h
          rfl
        · split at h
          · cases h
            rfl
          · cases h
  exact ⟨found, hfs ▸ hlookup⟩

theorem getattr_some {stat stat' : Stat} {ret : Int}
    (h : getattr fs path stat = some (fs', ret, stat')) :
    ∃ found, lookup fs path = some (fs', found) := by
  simp only [getattr, Option.bind_eq_bind] at h
  obtain ⟨⟨fs₁, found⟩, hlookup, h⟩ := Option.bind_eq_some_iff.mp h
  obtain ⟨isFind, -, h⟩ := Option.bind_eq_some_iff.mp h
  have hfs : fs' = fs₁ := by
    split at h
    · cases h
      rfl
    · obtain ⟨dentry, -, h⟩ := Option.bind_eq_some_iff.mp h
      obtain ⟨inode, -, h⟩ := Option.bind_eq_some_iff.mp h
      split at h
      · cases h
        rfl
      · cases h
        rfl
  exact ⟨found, hfs ▸ hlookup⟩

theorem readdir_some {offset ret : Int} {out : Option (List Byte × Int)}
    (h : readdir fs path offset = some (fs', ret, out)) :
    ∃ found, lookup fs path = some (fs', found) := by
  simp only [readdir, Option.bind_eq_bind] at h
  obtain ⟨⟨fs₁, found⟩, hlookup, h⟩ := Option.bind_eq_some_iff.mp h
  obtain ⟨isFind, -, h⟩ := Option.bind_eq_some_iff.mp h
  have hfs : fs' = fs₁ := by
    split at h
    · obtain ⟨dentry, -, h⟩ := Option.bind_eq_some_iff.mp h
      obtain ⟨inode, -, h⟩ := Option.bind_eq_some_iff.mp h
      split at h
      · cases h
        rfl
      · obtain ⟨sub, -, h⟩ := Option.bind_eq_some_iff.mp h
        cases h
        rfl
    · cases h
      rfl
  exact ⟨found, hfs ▸ hlookup⟩

end Queries

/-- A remount goes through an image. -/
theorem remount_some {fs fs' : Fs} {junk junk' : Junk}
    (h : (Op.remount junk junk').run fs = some fs') :
    ∃ disk, destroy fs junk = some disk ∧ init disk junk' = some fs' :=
  Option.bind_eq_some_iff.mp h

/-- A call other than a remount only grows the state. -/
theorem run_grows_or_remount {fs fs' : Fs} {op : Op} (h : op.run fs = some fs') :
    fs.Grows fs' ∨ ∃ junk junk', op = .remount junk junk' := by
  cases op with
  | remount junk junk' => exact Or.inr ⟨junk, junk', rfl⟩
  | mkdir path junk =>
      obtain ⟨⟨_, ret⟩, hrun, rfl⟩ := Option.map_eq_some_iff.mp h
      exact Or.inl (mkdir_grows hrun)
  | mknod path mode junk =>
      obtain ⟨⟨_, ret⟩, hrun, rfl⟩ := Option.map_eq_some_iff.mp h
      exact Or.inl (mknod_grows hrun)
  | write path buf offset =>
      obtain ⟨⟨_, ret⟩, hrun, rfl⟩ := Option.map_eq_some_iff.mp h
      exact Or.inl (write_grows hrun)
  | read path size offset =>
      obtain ⟨⟨_, ret, out⟩, hrun, rfl⟩ := Option.map_eq_some_iff.mp h
      obtain ⟨found, hlookup⟩ := read_some hrun
      exact Or.inl (lookup_grows hlookup)
  | getattr path stat =>
      obtain ⟨⟨_, ret, stat'⟩, hrun, rfl⟩ := Option.map_eq_some_iff.mp h
      obtain ⟨found, hlookup⟩ := getattr_some hrun
      exact Or.inl (lookup_grows hlookup)
  | readdir path offset =>
      obtain ⟨⟨_, ret, out⟩, hrun, rfl⟩ := Option.map_eq_some_iff.mp h
      obtain ⟨found, hlookup⟩ := readdir_some hrun
      exact Or.inl (lookup_grows hlookup)

theorem Mounted.step {fs fs' : Fs} (h : Mounted fs) (hstep : Step fs fs') : Mounted fs' := by
  obtain ⟨op, hrun⟩ := hstep
  rcases run_grows_or_remount hrun with hgrows | ⟨junk, junk', rfl⟩
  · exact h.grows hgrows
  · obtain ⟨disk, hdestroy, hinit⟩ := remount_some hrun
    exact (init_image_mounted (destroy_image h hdestroy).1 hinit).1

/-- Every state of every run is mounted. -/
theorem Run.mounted {szIo : ℕ} (hszIo : szIo ∣ 1024) {fs : Fs} (h : Run szIo fs) :
    Mounted fs := by
  obtain ⟨junk, fs₀, hinit, hreach⟩ := h
  obtain ⟨mapInode, hclaimed, hfresh⟩ := init_blank hszIo junk
  rw [hfresh] at hinit
  cases hinit
  exact reachable_invariant Mounted (freshFs_mounted hszIo junk hclaimed)
    (fun _ _ => Mounted.step) hreach

end OperateSystem.Newfs

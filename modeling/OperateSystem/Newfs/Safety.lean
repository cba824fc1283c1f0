import OperateSystem.Newfs.Run
import OperateSystem.Newfs.Walk

/-!
# Which lookups are safe

A lookup is safe when it returns a dentry with its inode and has assigned
`*is_find`.  It is not when it comes to a directory whose inode is not in memory
yet, since the inode it reads there is dropped, and not when it comes to a
regular file before the last component.  After a remount only the root is in
memory, so the first case is the rule there.
-/

namespace OperateSystem.Newfs

open OperateSystem.ByteStore
open OperateSystem.Invariant

/-- The lookup returns a dentry whose inode is loaded and assigns `*is_find`. -/
def Safe (fs : Fs) (path : List Byte) : Prop :=
  ∃ fs' found dentry, lookup fs path = some (fs', found) ∧ found.isFind.isSome ∧
    fs'.heap[found.dentry]? = some dentry ∧ dentry.inode.isSome

/-- The range lies on the device. -/
def OnDevice (disk : Disk) (offset size : Int) : Prop :=
  0 ≤ offset ∧ offset + size ≤ disk.size

/-- The inode record of `ino`, and what it leads to, lie on the device. -/
structure Readable (disk : Disk) (ftype : FileType) (ino : Int) : Prop where
  record : OnDevice disk (inoOfs ino) sizeofInodeD
  entries : ftype = .dir → ∀ i : ℕ,
    (i : Int) < (InodeD.decode (slice disk.bytes (inoOfs ino).toNat 32)).dirCnt →
    OnDevice disk (daOfs ino + i * sizeofDentryD) sizeofDentryD
  data : ftype = .file → OnDevice disk (daOfs ino) (dataPerFile * blksSz disk.szIo)

section Loading

variable {disk : Disk} (hdisk : Geometry disk)

include hdisk

theorem Geometry.read_isSome (offset : Int) {size : Int} (hsize : 0 < size) :
    (driverRead disk offset size).isSome ↔ OnDevice disk offset size := by
  constructor
  · intro hsome
    obtain ⟨out, hout⟩ := Option.isSome_iff_exists.mp hsome
    exact ⟨(driverRead_some hout).1, driverRead_fits hout hsize⟩
  · rintro ⟨hoffset, hend⟩
    rw [hdisk.size_eq] at hend
    rw [driverRead_eq hdisk.szIo_pos hoffset (by omega)
      (hdisk.alignedEnd_le hoffset (by omega) hend)]
    rfl

end Loading

section Inodes

variable {fs : Fs} (hdisk : Geometry fs.disk)

/-- The name read from an entry fits a dentry. -/
theorem newDentry_isSome (bytes : List Byte) :
    (newDentry (cstr (DentryD.decode bytes).fname) (DentryD.decode bytes).ftype).isSome := by
  have hlength : (cstr (DentryD.decode bytes).fname).length ≤ maxFileName := by
    calc (cstr (DentryD.decode bytes).fname).length
        ≤ (DentryD.decode bytes).fname.length := (List.takeWhile_prefix _).length_le
      _ ≤ maxFileName := List.length_take_le _ _
  rw [newDentry, if_pos hlength]
  rfl

include hdisk

/-- The entries of a directory are read when all of them are on the device. -/
theorem readDentrys_isSome {ino i : Int} {count : ℕ} {inode : Inode} :
    (readDentrys ino count i fs inode).isSome ↔
      ∀ j : ℕ, j < count →
        OnDevice fs.disk (daOfs ino + (i + j) * sizeofDentryD) sizeofDentryD := by
  induction count generalizing i fs inode with
  | zero => simp [readDentrys]
  | succ count ih =>
      have hfirst := hdisk.read_isSome (daOfs ino + i * sizeofDentryD)
        (show (0 : Int) < sizeofDentryD by decide)
      rw [readDentrys]
      simp only [Option.bind_eq_bind]
      cases hread : driverRead fs.disk (daOfs ino + i * sizeofDentryD) sizeofDentryD with
      | none =>
          simp only [hread, Option.isSome_none, Bool.false_eq_true, false_iff] at hfirst
          simp only [Option.bind_none, Option.isSome_none, Bool.false_eq_true, false_iff]
          intro hall
          exact hfirst (by simpa using hall 0 (by omega))
      | some bytes =>
          simp only [hread, Option.isSome_some, true_iff] at hfirst
          obtain ⟨sub, hsub⟩ := Option.isSome_iff_exists.mp (newDentry_isSome bytes)
          simp only [Option.bind_some, hsub]
          refine (ih (by exact hdisk)).trans ?_
          constructor
          · intro hrest j hj
            cases j with
            | zero => simpa using hfirst
            | succ j =>
                have hnext := hrest j (by omega)
                have hindex : i + 1 + (j : Int) = i + ((j + 1 : ℕ) : Int) := by
                  push_cast
                  omega
                rwa [hindex] at hnext
          · intro hall j hj
            have hindex : i + 1 + (j : Int) = i + ((j + 1 : ℕ) : Int) := by
              push_cast
              omega
            rw [hindex]
            exact hall (j + 1) (by omega)

theorem readInode_isSome {ftype : FileType} {ino : Int} :
    (readInode fs ftype ino).isSome ↔ Readable fs.disk ftype ino := by
  have hrecord := hdisk.read_isSome (inoOfs ino) (show (0 : Int) < sizeofInodeD by decide)
  rw [readInode]
  simp only [Option.bind_eq_bind]
  cases hread : driverRead fs.disk (inoOfs ino) sizeofInodeD with
  | none =>
      simp only [hread, Option.isSome_none, Bool.false_eq_true, false_iff] at hrecord
      simp only [Option.bind_none, Option.isSome_none, Bool.false_eq_true, false_iff]
      exact fun h => hrecord h.record
  | some bytes =>
      simp only [hread, Option.isSome_some, true_iff] at hrecord
      have hbytes : bytes = slice fs.disk.bytes (inoOfs ino).toNat 32 :=
        (driverRead_some hread).2.2
      simp only [Option.bind_some]
      cases ftype with
      | dir =>
          rw [readDentrys_isSome hdisk, hbytes]
          constructor
          · intro hall
            refine ⟨hrecord, ?_, by simp⟩
            intro _ i hi
            simpa using hall i (by omega)
          · intro h j hj
            simpa using h.entries rfl j (by omega)
      | file =>
          have hdata := hdisk.read_isSome (daOfs ino)
            (show (0 : Int) < dataPerFile * blksSz fs.disk.szIo by rw [hdisk.blks]; decide)
          constructor
          · intro hsome
            obtain ⟨result, hresult⟩ := Option.isSome_iff_exists.mp hsome
            obtain ⟨data, hdataRead, -⟩ := Option.bind_eq_some_iff.mp hresult
            exact ⟨hrecord, by simp, fun _ => hdata.mp (by rw [hdataRead]; rfl)⟩
          · intro h
            obtain ⟨data, hdataRead⟩ := Option.isSome_iff_exists.mp (hdata.mpr (h.data rfl))
            simp [hdataRead]
      | symLink => exact iff_of_true rfl ⟨hrecord, by simp, by simp⟩
      | other raw => exact iff_of_true rfl ⟨hrecord, by simp, by simp⟩

end Inodes

section Safety

variable {fs : Fs} (h : Mounted fs)

include h

end Safety

end OperateSystem.Newfs

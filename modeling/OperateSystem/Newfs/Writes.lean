import OperateSystem.Newfs.Operations

/-!
# The writes that unmounting issues

`newfs_destroy` issues a sequence of device writes that memory alone determines.
The definitions list it, with the object each write belongs to; performing the list
in order is what unmounting does to the device.
-/

namespace OperateSystem.Newfs

/-- What a write of `newfs_destroy` is about. -/
inductive Object
  | super
  | mapInode
  | mapData
  | slot (ino : Int)
  | data (ino : Int)
  deriving DecidableEq

def Object.start : Object → Int
  | super => superOfs
  | mapInode => mapInodeOfs
  | mapData => mapDataOfs
  | slot ino => inoOfs ino
  | data ino => daOfs ino

def Object.size (szIo : ℕ) : Object → Int
  | super => sizeofSuperD
  | mapInode => mapInodeBlocks * blksSz szIo
  | mapData => mapDataBlocks * blksSz szIo
  | slot _ => inodeSize
  | data _ => dataPerFile * blksSz szIo

/-- The byte belongs to the object. -/
def Object.Owns (szIo : ℕ) (object : Object) (addr : Int) : Prop :=
  object.start ≤ addr ∧ addr < object.start + object.size szIo

/-- A call of `newfs_driver_write`. -/
structure Write where
  object : Object
  offset : Int
  content : List Byte
  size : Int

def Write.perform (disk : Disk) (write : Write) : Option Disk :=
  driverWrite disk write.offset write.content write.size

/-- The byte is in the range that the write was asked to replace. -/
def Write.Covers (write : Write) (addr : Int) : Prop :=
  write.offset ≤ addr ∧ addr < write.offset + write.size

/-- The byte is in one of the blocks that the write reads and puts back. -/
def Write.Touches (szIo : ℕ) (write : Write) (addr : Int) : Prop :=
  roundDown write.offset (blksSz szIo) ≤ addr ∧ addr < alignedEnd szIo write.offset write.size

/-- The writes of the loop over the entries of the directory `ino`; `below` lists those
of the recursive call. -/
def dentrysWrites (heap : List Dentry) (junk : Junk) (ino : Int)
    (below : Dentry → Option (List Write)) :
    List DentryPtr → (offset : Int) → Option (List Write)
  | [], _ => some []
  | ptr :: ptrs, offset => do
      let dentry ← heap[ptr]?
      let dentryD : DentryD := ⟨dentry.fname, dentry.ftype, dentry.ino⟩
      let record : Write :=
        ⟨.data ino, offset, dentryD.encode junk offset.toNat, sizeofDentryD⟩
      let inner ← (if dentry.inode.isSome then below dentry else some [])
      let rest ← dentrysWrites heap junk ino below ptrs (offset + sizeofDentryD)
      return record :: inner ++ rest

/-- The writes of `newfs_sync_inode` after the inode record, its "Cycle 2". -/
def contentWrites (heap : List Dentry) (junk : Junk) (szIo : ℕ)
    (below : Dentry → Option (List Write)) (ftype : FileType) (inode : Inode) :
    Option (List Write) :=
  match ftype with
  | .dir => dentrysWrites heap junk inode.ino below inode.dentrys (daOfs inode.ino)
  | .file =>
      some [⟨.data inode.ino, daOfs inode.ino, inode.data, roundUp inode.size (blksSz szIo)⟩]
  | _ => some []

/-- The writes of `newfs_sync_inode(dentry->inode)`. -/
def inodeWrites (heap : List Dentry) (junk : Junk) (szIo : ℕ) :
    (fuel : ℕ) → Dentry → Option (List Write)
  | 0, _ => none
  | fuel + 1, dentry => do
      let inode ← dentry.inode
      let ino := inode.ino
      let inodeD : InodeD := ⟨ino, inode.size, dentry.ftype, inode.dirCnt⟩
      let record : Write :=
        ⟨.slot ino, inoOfs ino, inodeD.encode junk (inoOfs ino).toNat, sizeofInodeD⟩
      let rest ← contentWrites heap junk szIo (inodeWrites heap junk szIo fuel) dentry.ftype inode
      return record :: rest

/-- The writes of the metadata at the end of `newfs_destroy`. -/
def superWrites (szIo : ℕ) (super : Super) (junk : Junk) : List Write :=
  let superD := super.toDisk
  [⟨.super, superOfs, superD.encode junk, sizeofSuperD⟩,
    ⟨.mapInode, superD.mapInodeOffset, super.mapInode, superD.mapInodeBlks * blksSz szIo⟩,
    ⟨.mapData, superD.mapDataOffset, super.mapData, superD.mapDataBlks * blksSz szIo⟩]

/-- The writes of `newfs_destroy`. -/
def destroyWrites (fs : Fs) (junk : Junk) : Option (List Write) :=
  if fs.super.isMounted = false then some []
  else do
    let root ← fs.heap[fs.super.rootDentry]?
    let writes ← inodeWrites fs.heap junk fs.disk.szIo fs.heap.length root
    return writes ++ superWrites fs.disk.szIo fs.super junk

/-- One write after the other. -/
def performAll (disk : Disk) (writes : List Write) : Option Disk :=
  writes.foldlM Write.perform disk

/-- On devices with IO unit `szIo`, `run` performs the writes that are listed. -/
def Lists (szIo : ℕ) (run : Disk → Option Disk) (writes : Option (List Write)) : Prop :=
  ∀ disk : Disk, disk.szIo = szIo → run disk = writes.bind (performAll disk)

section Perform

theorem Write.perform_szIo {disk disk' : Disk} {write : Write}
    (h : write.perform disk = some disk') : disk'.szIo = disk.szIo := by
  rw [(driverWrite_some h).2.2.2]

theorem performAll_szIo {disk disk' : Disk} {writes : List Write}
    (h : performAll disk writes = some disk') : disk'.szIo = disk.szIo := by
  induction writes generalizing disk with
  | nil =>
      cases h
      rfl
  | cons write writes ih =>
      obtain ⟨disk₁, hwrite, hrest⟩ := Option.bind_eq_some_iff.mp h
      exact (ih hrest).trans (Write.perform_szIo hwrite)

theorem performAll_append (disk : Disk) (writes writes' : List Write) :
    performAll disk (writes ++ writes')
      = (performAll disk writes).bind fun disk => performAll disk writes' := by
  rw [performAll, List.foldlM_append]
  rfl

variable {szIo : ℕ}

theorem Lists.nil : Lists szIo some (some []) := fun _ _ => rfl

theorem Lists.write (write : Write) : Lists szIo write.perform (some [write]) := by
  intro disk _
  rw [Option.bind_some, performAll, List.foldlM_cons]
  exact (bind_pure (write.perform disk)).symm

/-- One list after the other. -/
theorem Lists.append {run run' : Disk → Option Disk} {writes writes' : Option (List Write)}
    (h : Lists szIo run writes) (h' : Lists szIo run' writes') :
    Lists szIo (fun disk => (run disk).bind run')
      (writes.bind fun first => writes'.map fun second => first ++ second) := by
  intro disk hszIo
  change (run disk).bind run' = _
  rw [h disk hszIo]
  cases writes with
  | none => rfl
  | some first =>
      simp only [Option.bind_some]
      cases hfirst : performAll disk first with
      | none =>
          symm
          rw [Option.bind_none, Option.bind_eq_none_iff]
          intro all hall
          obtain ⟨second, -, rfl⟩ := Option.map_eq_some_iff.mp hall
          rw [performAll_append, hfirst, Option.bind_none]
      | some disk₁ =>
          rw [Option.bind_some, h' disk₁ ((performAll_szIo hfirst).trans hszIo)]
          cases writes' with
          | none => rfl
          | some second => simp only [Option.bind_some, Option.map_some, performAll_append, hfirst]

/-- One write and then a list. -/
theorem Lists.cons {run : Disk → Option Disk} {writes : Option (List Write)} (write : Write)
    (h : Lists szIo run writes) :
    Lists szIo (fun disk => (write.perform disk).bind run)
      (writes.map fun rest => write :: rest) :=
  (Lists.write write).append h

variable {heap : List Dentry} {junk : Junk}

/-- The loop over the entries performs the writes that it lists. -/
theorem syncDentrys_lists {ino : Int} {sync : Dentry → Disk → Option Disk}
    {below : Dentry → Option (List Write)}
    (hsync : ∀ dentry, Lists szIo (sync dentry) (below dentry))
    (ptrs : List DentryPtr) (offset : Int) :
    Lists szIo (syncDentrys heap junk sync ptrs offset)
      (dentrysWrites heap junk ino below ptrs offset) := by
  induction ptrs generalizing offset with
  | nil => exact Lists.nil
  | cons ptr ptrs ih =>
      cases hptr : heap[ptr]? with
      | none =>
          intro disk _
          simp only [syncDentrys, dentrysWrites, hptr]
          rfl
      | some dentry =>
          have hinner : Lists szIo
              (fun disk => if dentry.inode.isSome then sync dentry disk else some disk)
              (if dentry.inode.isSome then below dentry else some []) := by
            split
            · exact hsync dentry
            · exact Lists.nil
          have hall := Lists.cons ⟨.data ino, offset, DentryD.encode
            ⟨dentry.fname, dentry.ftype, dentry.ino⟩ junk offset.toNat, sizeofDentryD⟩
            (hinner.append (ih (offset + sizeofDentryD)))
          intro disk hszIo
          simp only [syncDentrys, dentrysWrites, hptr, Option.bind_eq_bind, Option.bind_some]
          refine (hall disk hszIo).trans
            (congrArg (fun writes : Option (List Write) => writes.bind (performAll disk)) ?_)
          cases (if dentry.inode.isSome then below dentry else some []) with
          | none => rfl
          | some inner =>
              cases dentrysWrites heap junk ino below ptrs (offset + sizeofDentryD) <;> rfl

/-- A flush performs the writes that it lists. -/
theorem syncInode_lists (fuel : ℕ) (dentry : Dentry) :
    Lists szIo (syncInode heap junk fuel dentry) (inodeWrites heap junk szIo fuel dentry) := by
  induction fuel generalizing dentry with
  | zero => exact fun _ _ => rfl
  | succ fuel ih =>
      cases hinode : dentry.inode with
      | none =>
          intro disk _
          simp only [syncInode, inodeWrites, hinode]
          rfl
      | some inode =>
          have hrest : Lists szIo
              (fun disk => match dentry.ftype with
                | .dir => syncDentrys heap junk (syncInode heap junk fuel) inode.dentrys
                    (daOfs inode.ino) disk
                | .file => driverWrite disk (daOfs inode.ino) inode.data
                    (roundUp inode.size (blksSz disk.szIo))
                | _ => some disk)
              (contentWrites heap junk szIo (inodeWrites heap junk szIo fuel) dentry.ftype
                inode) := by
            cases dentry.ftype with
            | dir => exact syncDentrys_lists ih _ _
            | file =>
                intro disk hszIo
                subst hszIo
                exact Lists.write ⟨.data inode.ino, daOfs inode.ino, inode.data,
                  roundUp inode.size (blksSz disk.szIo)⟩ disk rfl
            | symLink => exact Lists.nil
            | other raw => exact Lists.nil
          have hall := Lists.cons ⟨.slot inode.ino, inoOfs inode.ino, InodeD.encode
            ⟨inode.ino, inode.size, dentry.ftype, inode.dirCnt⟩ junk (inoOfs inode.ino).toNat,
            sizeofInodeD⟩ hrest
          intro disk hszIo
          simp only [syncInode, inodeWrites, hinode, Option.bind_eq_bind, Option.bind_some]
          refine (hall disk hszIo).trans
            (congrArg (fun writes : Option (List Write) => writes.bind (performAll disk)) ?_)
          rw [Option.map_eq_bind]
          rfl

/-- Unmounting performs the writes that it lists. -/
theorem destroy_performs (fs : Fs) (junk : Junk) :
    destroy fs junk = (destroyWrites fs junk).bind (performAll fs.disk) := by
  rw [destroy, destroyWrites]
  split
  · rfl
  · cases hroot : fs.heap[fs.super.rootDentry]? with
    | none => rfl
    | some root =>
        have hsuper : Lists fs.disk.szIo
            (fun disk => (driverWrite disk superOfs (fs.super.toDisk.encode junk) sizeofSuperD).bind
              fun disk => (driverWrite disk fs.super.toDisk.mapInodeOffset fs.super.mapInode
                (fs.super.toDisk.mapInodeBlks * blksSz fs.disk.szIo)).bind
              fun disk => driverWrite disk fs.super.toDisk.mapDataOffset fs.super.mapData
                (fs.super.toDisk.mapDataBlks * blksSz fs.disk.szIo))
            (some (superWrites fs.disk.szIo fs.super junk)) :=
          Lists.cons ⟨.super, superOfs, fs.super.toDisk.encode junk, sizeofSuperD⟩
            (Lists.cons ⟨.mapInode, fs.super.toDisk.mapInodeOffset, fs.super.mapInode,
              fs.super.toDisk.mapInodeBlks * blksSz fs.disk.szIo⟩
              (Lists.write ⟨.mapData, fs.super.toDisk.mapDataOffset, fs.super.mapData,
                fs.super.toDisk.mapDataBlks * blksSz fs.disk.szIo⟩))
        have hall := (@syncInode_lists fs.disk.szIo fs.heap junk fs.heap.length root).append hsuper
        simp only [Option.bind_eq_bind, Option.bind_some]
        refine (hall fs.disk rfl).trans
          (congrArg (fun writes : Option (List Write) => writes.bind (performAll fs.disk)) ?_)
        simp only [Option.map_some]
        rfl

end Perform

end OperateSystem.Newfs

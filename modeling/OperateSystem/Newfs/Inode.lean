import OperateSystem.Core.Bitmap
import OperateSystem.Newfs.Driver

/-!
# Dentries, inodes and their transfer to disk

The in-memory structures of newfs and the functions that allocate, flush and
load them.  Dentries live in an arena and a `struct newfs_dentry *` is an index
into it.  An inode is reached through the dentry that owns it, which is also
where its back pointer leads, so it is stored there; the sibling list
`dentrys`, `brother`, ... is a list of dentry pointers.  `parent` and `valid`
are assigned and never read, so they are left out.

`sz_io` and `sz_disk` are what the device reports, so `NEWFS_IOBLOCK_SZ()` reads
the device.  `none` is a crash: a null pointer, an index outside a buffer, or
an access outside the device.
-/

namespace OperateSystem.Newfs

open OperateSystem.Bitmap
open OperateSystem.ByteStore

/-- `struct newfs_dentry *`. -/
abbrev DentryPtr := ℕ

/-- `struct newfs_inode`. -/
structure Inode where
  ino : Int
  size : Int
  dirCnt : Int
  dentrys : List DentryPtr
  data : List Byte

/-- `struct newfs_dentry`; `fname` is the whole array. -/
structure Dentry where
  fname : List Byte
  ftype : FileType
  ino : Int
  inode : Option Inode

/-- `struct newfs_super`. -/
structure Super where
  szUsage : Int
  maxIno : Int
  maxData : Int
  mapInode : List Byte
  mapInodeBlks : Int
  mapInodeOffset : Int
  mapData : List Byte
  mapDataBlks : Int
  mapDataOffset : Int
  inodeOffset : Int
  dataOffset : Int
  isMounted : Bool
  rootDentry : DentryPtr

/-- A mounted file system: the device, `newfs_super` and the dentries. -/
structure Fs where
  disk : Disk
  super : Super
  heap : List Dentry

/-- Store `inode` as the inode of the dentry at `ptr`, whose value is `dentry`. -/
def Fs.setInode (fs : Fs) (ptr : DentryPtr) (dentry : Dentry) (inode : Inode) : Fs :=
  { fs with heap := fs.heap.set ptr { dentry with inode := some inode } }

def errorNospace : Int := 28

/-- `new_dentry(fname, ftype)`.  The array is zeroed and the name copied without
its NUL; a name longer than the array runs over the other fields. -/
def newDentry (fname : List Byte) (ftype : FileType) : Option Dentry :=
  if fname.length ≤ maxFileName then
    some { fname := fname ++ List.replicate (maxFileName - fname.length) 0
           ftype := ftype
           ino := -1
           inode := none }
  else none

/-- `newfs_get_dentry(inode, dir)`. -/
def getDentry (inode : Inode) (dir : Int) : Option DentryPtr :=
  if 0 ≤ dir then inode.dentrys[dir.toNat]? else none

/-- The test in `newfs_alloc_dentry`, as the preprocessor expands it.  The second
`NEWFS_ROUND_UP` gets `inode->size + sizeof(struct newfs_dentry)` without
parentheses, so `%` and `/` bind to the `sizeof` alone, and the `sizeof` makes
both sides 64-bit unsigned. -/
def needsDataBlock (size blks : Int) : Bool :=
  let grown :=
    if (size + sizeofDentry.tmod blks) % 2 ^ 64 = 0 then size + sizeofDentry
    else (size + sizeofDentry.tdiv blks + 1) * blks
  decide (roundUp size blks % 2 ^ 64 ≠ grown % 2 ^ 64)

/-- `newfs_alloc_dentry(inode, dentry)`: link the dentry in front, then claim a
bit of the data bitmap and count the entry.  Both failures leave it linked. -/
def allocDentry (blks : Int) (super : Super) (inode : Inode) (dentry : DentryPtr) :
    Super × Inode × Int :=
  let inode := { inode with dentrys := dentry :: inode.dentrys }
  let scan := if needsDataBlock inode.size blks then claimBit super.mapData 0 else none
  match scan with
  | none => (super, inode, -errorNospace)
  | some (dataCursor, mapData) =>
      let super := { super with mapData := mapData }
      if (dataCursor : Int) = super.maxData then (super, inode, -errorNospace)
      else
        (super,
          { inode with dirCnt := inode.dirCnt + 1, size := toInt32 (inode.size + sizeofDentry) },
          inode.dirCnt + 1)

/-- The record `newfs_sync_inode` writes for one entry of a directory. -/
def writeDentry (junk : Junk) (disk : Disk) (offset : Int) (dentry : Dentry) : Option Disk :=
  let dentryD : DentryD := ⟨dentry.fname, dentry.ftype, dentry.ino⟩
  driverWrite disk offset (dentryD.encode junk offset.toNat) sizeofDentryD

/-- The loop of `newfs_sync_inode` over the entries of a directory; `sync` is the
recursive call. -/
def syncDentrys (heap : List Dentry) (junk : Junk) (sync : Dentry → Disk → Option Disk) :
    List DentryPtr → (offset : Int) → Disk → Option Disk
  | [], _, disk => some disk
  | ptr :: ptrs, offset, disk => do
      let dentry ← heap[ptr]?
      let disk ← writeDentry junk disk offset dentry
      let disk ← (if dentry.inode.isSome then sync dentry disk else some disk)
      syncDentrys heap junk sync ptrs (offset + sizeofDentryD) disk

/-- `newfs_sync_inode(dentry->inode)`. -/
def syncInode (heap : List Dentry) (junk : Junk) : (fuel : ℕ) → Dentry → Disk → Option Disk
  | 0, _, _ => none
  | fuel + 1, dentry, disk => do
      let inode ← dentry.inode
      let ino := inode.ino
      let inodeD : InodeD := ⟨ino, inode.size, dentry.ftype, inode.dirCnt⟩
      let disk ← driverWrite disk (inoOfs ino) (inodeD.encode junk (inoOfs ino).toNat) sizeofInodeD
      match dentry.ftype with
      | .dir => syncDentrys heap junk (syncInode heap junk fuel) inode.dentrys (daOfs ino) disk
      | .file =>
          driverWrite disk (daOfs ino) inode.data (roundUp inode.size (blksSz disk.szIo))
      | _ => some disk

/-- `newfs_alloc_inode(dentry)`.  When the bitmap is full or the cursor meets
`max_ino` the dentry is left without an inode; in the second case the bit stays
set. -/
def allocInode (blks : Int) (super : Super) (dentry : Dentry) (junk : Junk) : Super × Dentry :=
  match claimBit super.mapInode 0 with
  | none => (super, dentry)
  | some (inoCursor, mapInode) =>
      let super := { super with mapInode := mapInode }
      if (inoCursor : Int) = super.maxIno then (super, dentry)
      else
        let inode : Inode :=
          { ino := inoCursor
            size := 0
            dirCnt := 0
            dentrys := []
            data := if dentry.ftype = .file then slice junk 0 (dataPerFile * blks).toNat else [] }
        (super, { dentry with ino := inoCursor, inode := some inode })

/-- The loop of `newfs_read_inode` over the entries of a directory, from entry
`i` on.  `strlen` of a name that fills its array stops in the `ftype` field that
follows, and the bytes copied past the array are assigned again. -/
def readDentrys (ino : Int) : (count : ℕ) → (i : Int) → Fs → Inode → Option (Fs × Inode)
  | 0, _, fs, inode => some (fs, inode)
  | count + 1, i, fs, inode => do
      let bytes ← driverRead fs.disk (daOfs ino + i * sizeofDentryD) sizeofDentryD
      let dentryD := DentryD.decode bytes
      let subDentry ← newDentry (cstr dentryD.fname) dentryD.ftype
      let subDentry := { subDentry with ino := dentryD.ino }
      let (super, inode, _) := allocDentry (blksSz fs.disk.szIo) fs.super inode fs.heap.length
      readDentrys ino count (i + 1) { fs with super := super, heap := fs.heap ++ [subDentry] } inode

/-- `newfs_read_inode(dentry, ino)` for a dentry of type `ftype`. -/
def readInode (fs : Fs) (ftype : FileType) (ino : Int) : Option (Fs × Inode) := do
  let bytes ← driverRead fs.disk (inoOfs ino) sizeofInodeD
  let inodeD := InodeD.decode bytes
  let inode : Inode := ⟨inodeD.ino, inodeD.size, 0, [], []⟩
  match ftype with
  | .dir => readDentrys ino inodeD.dirCnt.toNat 0 fs inode
  | .file => do
      let data ← driverRead fs.disk (daOfs ino) (dataPerFile * blksSz fs.disk.szIo)
      return (fs, { inode with data := data })
  | _ => return (fs, inode)

end OperateSystem.Newfs

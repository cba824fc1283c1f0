import OperateSystem.Newfs.Inode

/-!
# The FUSE operations of newfs

Path lookup and the operations registered with FUSE.  A path is a NUL-free byte
string.  An operation returns the new state and the C return value.
-/

namespace OperateSystem.Newfs

open OperateSystem.ByteStore

def errorSeek : Int := 29
def errorIsdir : Int := 21
def errorExists : Int := 17
def errorNotfound : Int := 2
def errorUnsupported : Int := 6

/-- The character `/`. -/
def slash : Byte := 47

/-- `newfs_calc_lvl(path)`. -/
def calcLvl (path : List Byte) : ℕ :=
  if path = [slash] then 0 else path.count slash

/-- The tokens that `strtok(path, "/")` yields one after the other. -/
def tokens (path : List Byte) : List (List Byte) :=
  (path.splitOn slash).filter (· ≠ [])

/-- `newfs_get_fname(path)`, the text after the last slash. -/
def getFname (path : List Byte) : Option (List Byte) :=
  if slash ∈ path then some (path.reverse.takeWhile (· ≠ slash)).reverse else none

/-- The bytes from `dentry->fname` on.  A name that fills the array has no NUL of
its own, so reading it as a string runs on into `ftype`; the padding after that
is zero. -/
def Dentry.chars (dentry : Dentry) : List Byte :=
  dentry.fname ++ encodeInt dentry.ftype.toInt

/-- The test `memcmp(dentry->fname, fname, strlen(fname)) == 0`. -/
def Dentry.hits (fname : List Byte) (dentry : Dentry) : Bool :=
  fname.isPrefixOf dentry.chars

/-- The inner loop of `newfs_lookup`: the first sibling that hits. -/
def findHit (heap : List Dentry) (fname : List Byte) (dentrys : List DentryPtr) :
    Option DentryPtr :=
  dentrys.find? fun ptr => (heap[ptr]?).any (Dentry.hits fname)

/-- The outer loop of `newfs_lookup`, over the tokens.  It returns `dentry_ret`
and `*is_find`, which may still be null and unassigned.  A dentry without inode
is read and the result dropped, so the next line dereferences null. -/
def lookupLoop (heap : List Dentry) (totalLvl : ℕ) :
    (fnames : List (List Byte)) → (lvl : ℕ) → (dentryCursor : DentryPtr) →
    Option DentryPtr × Option Bool → Option (Option DentryPtr × Option Bool)
  | [], _, _, acc => some acc
  | fname :: fnames, lvl, dentryCursor, acc => do
      let dentry ← heap[dentryCursor]?
      let inode ← dentry.inode
      if dentry.ftype = .file ∧ lvl + 1 < totalLvl then
        return (some dentryCursor, acc.2)
      else if dentry.ftype = .dir then
        match findHit heap fname inode.dentrys with
        | none => return (some dentryCursor, some false)
        | some hit =>
            if lvl + 1 = totalLvl then return (some hit, some true)
            else lookupLoop heap totalLvl fnames (lvl + 1) hit acc
      else lookupLoop heap totalLvl fnames (lvl + 1) dentryCursor acc

/-- What `newfs_lookup` returns: the dentry, `*is_find` and `*is_root`. -/
structure Lookup where
  dentry : DentryPtr
  isFind : Option Bool
  isRoot : Bool

/-- The end of `newfs_lookup`: load the inode of the result. -/
def loadInode (fs : Fs) (ptr : DentryPtr) : Option Fs := do
  let dentry ← fs.heap[ptr]?
  if dentry.inode.isSome then return fs
  else
    let (fs, inode) ← readInode fs dentry.ftype dentry.ino
    return fs.setInode ptr dentry inode

/-- `newfs_lookup(path, &is_find, &is_root)`. -/
def lookup (fs : Fs) (path : List Byte) : Option (Fs × Lookup) := do
  let totalLvl := calcLvl path
  let acc := if totalLvl = 0 then (some fs.super.rootDentry, some true) else (none, none)
  let (ret, isFind) ← lookupLoop fs.heap totalLvl (tokens path) 0 fs.super.rootDentry acc
  let dentry ← ret
  let fs ← loadInode fs dentry
  return (fs, ⟨dentry, isFind, totalLvl = 0⟩)

/-- The common end of `newfs_mkdir` and `newfs_mknod`: give the new dentry an
inode and link it into the directory of `last_dentry`.  Both results are
ignored. -/
def create (fs : Fs) (lastDentry : DentryPtr) (dentry : Dentry) (junk : Junk) : Option Fs := do
  let blks := blksSz fs.disk.szIo
  let last ← fs.heap[lastDentry]?
  let lastInode ← last.inode
  let (super, dentry) := allocInode blks fs.super dentry junk
  let (super, lastInode, _) := allocDentry blks super lastInode fs.heap.length
  let fs := fs.setInode lastDentry last lastInode
  return { fs with super := super, heap := fs.heap ++ [dentry] }

/-- `newfs_mkdir(path, mode)`. -/
def mkdir (fs : Fs) (path : List Byte) (junk : Junk) : Option (Fs × Int) := do
  let (fs, found) ← lookup fs path
  let isFind ← found.isFind
  if isFind then return (fs, -errorExists)
  else
    let last ← fs.heap[found.dentry]?
    if last.ftype = .file then return (fs, -errorUnsupported)
    else
      let fname ← getFname path
      let dentry ← newDentry fname .dir
      let fs ← create fs found.dentry dentry junk
      return (fs, 0)

/-- What `newfs_mknod` asks of `mode`. -/
inductive Mode
  | reg
  | dir
  | other
  deriving DecidableEq

/-- The type `newfs_mknod` gives the new dentry; for other modes the dentry
pointer is never assigned. -/
def Mode.fileType : Mode → Option FileType
  | reg => some .file
  | dir => some .dir
  | other => none

/-- `newfs_mknod(path, mode, dev)`. -/
def mknod (fs : Fs) (path : List Byte) (mode : Mode) (junk : Junk) : Option (Fs × Int) := do
  let (fs, found) ← lookup fs path
  let isFind ← found.isFind
  if isFind then return (fs, -errorExists)
  else
    let fname ← getFname path
    let ftype ← mode.fileType
    let dentry ← newDentry fname ftype
    let fs ← create fs found.dentry dentry junk
    return (fs, 0)

/-- The end of `newfs_write`: `memcpy(inode->data + offset, buf, size)`, and the
size grows when the end of the write is past it. -/
def Inode.overlay (inode : Inode) (buf : List Byte) (offset : Int) : Inode :=
  { inode with
    data := patch inode.data offset.toNat buf
    size := if inode.size < offset + buf.length then offset + buf.length else inode.size }

/-- `newfs_write(path, buf, size, offset)`; `buf` holds the `size` bytes. -/
def write (fs : Fs) (path buf : List Byte) (offset : Int) : Option (Fs × Int) := do
  let (fs, found) ← lookup fs path
  let isFind ← found.isFind
  if isFind = false then return (fs, -errorNotfound)
  else
    let dentry ← fs.heap[found.dentry]?
    let inode ← dentry.inode
    if dentry.ftype = .dir then return (fs, -errorIsdir)
    else if inode.size < offset then return (fs, -errorSeek)
    else if 0 ≤ offset ∧ offset + buf.length ≤ inode.data.length then
      return (fs.setInode found.dentry dentry (inode.overlay buf offset), buf.length)
    else none

/-- `newfs_read(path, buf, size, offset)`; the last result is what `buf` gets. -/
def read (fs : Fs) (path : List Byte) (size : ℕ) (offset : Int) :
    Option (Fs × Int × List Byte) := do
  let (fs, found) ← lookup fs path
  let isFind ← found.isFind
  if isFind = false then return (fs, -errorNotfound, [])
  else
    let dentry ← fs.heap[found.dentry]?
    let inode ← dentry.inode
    if dentry.ftype = .dir then return (fs, -errorIsdir, [])
    else if inode.size < offset then return (fs, -errorSeek, [])
    else if 0 ≤ offset ∧ offset + size ≤ inode.data.length then
      return (fs, size, (inode.data.drop offset.toNat).take size)
    else none

/-- The fields of `struct stat` that `newfs_getattr` fills from the file system;
owner and times come from the process. -/
structure Stat where
  mode : Int
  size : Int
  nlink : Int
  blksize : Int
  blocks : Int

/-- `S_IFDIR`, `S_IFREG` and `S_IFLNK`, each with `NEWFS_DEFAULT_PERM`. -/
def modeDir : Int := 0x4000 + 0x1ff
def modeReg : Int := 0x8000 + 0x1ff
def modeLnk : Int := 0xa000 + 0x1ff

/-- `newfs_getattr(path, newfs_stat)`. -/
def getattr (fs : Fs) (path : List Byte) (stat : Stat) : Option (Fs × Int × Stat) := do
  let (fs, found) ← lookup fs path
  let isFind ← found.isFind
  if isFind = false then return (fs, -errorNotfound, stat)
  else
    let dentry ← fs.heap[found.dentry]?
    let inode ← dentry.inode
    let stat := match dentry.ftype with
      | .dir => { stat with mode := modeDir, size := inode.dirCnt * sizeofDentryD }
      | .file => { stat with mode := modeReg, size := inode.size }
      | .symLink => { stat with mode := modeLnk, size := inode.size }
      | .other _ => stat
    let stat := { stat with nlink := 1, blksize := blksSz fs.disk.szIo }
    if found.isRoot then
      return (fs, 0, { stat with
        size := fs.super.szUsage
        blocks := (fs.disk.size : Int).tdiv (blksSz fs.disk.szIo)
        nlink := 2 })
    else return (fs, 0, stat)

/-- `newfs_readdir(path, buf, filler, offset)`; the last result is the name and
the next offset handed to `filler`, if it is called. -/
def readdir (fs : Fs) (path : List Byte) (offset : Int) :
    Option (Fs × Int × Option (List Byte × Int)) := do
  let (fs, found) ← lookup fs path
  let isFind ← found.isFind
  if isFind then
    let dentry ← fs.heap[found.dentry]?
    let inode ← dentry.inode
    match getDentry inode (toInt32 offset) with
    | none => return (fs, 0, none)
    | some sub => do
        let subDentry ← fs.heap[sub]?
        return (fs, 0, some (cstr subDentry.chars, offset + 1))
  else return (fs, -errorNotfound, none)

/-- The first half of `newfs_init` in a new process, whose `newfs_super` is
zeroed: read the superblock, or make one up when the magic number is missing,
and read both bitmaps.  The flag is `is_init`; only then are `max_ino` and
`max_data` assigned. -/
def loadSuper (disk : Disk) : Option (Super × Bool) := do
  let blks := blksSz disk.szIo
  let bytes ← driverRead disk superOfs sizeofSuperD
  let superD := SuperD.decode bytes
  let isInit : Bool := superD.magicNum ≠ magicNum
  let superD :=
    if isInit then
      { superD with
        mapInodeOffset := mapInodeOfs
        mapDataOffset := mapDataOfs
        mapInodeBlks := mapInodeBlocks
        mapDataBlks := mapDataBlocks
        inodeOffset := inodeOfs
        dataOffset := dataOfs
        szUsage := 0 }
    else superD
  let mapInode ← driverRead disk superD.mapInodeOffset (superD.mapInodeBlks * blks)
  let mapData ← driverRead disk superD.mapDataOffset (superD.mapDataBlks * blks)
  return (
    { szUsage := superD.szUsage
      maxIno := if isInit then inodeNum else 0
      maxData := if isInit then dataNum else 0
      mapInode := mapInode
      mapInodeBlks := superD.mapInodeBlks
      mapInodeOffset := superD.mapInodeOffset
      mapData := mapData
      mapDataBlks := superD.mapDataBlks
      mapDataOffset := superD.mapDataOffset
      inodeOffset := 0
      dataOffset := 0
      isMounted := true
      rootDentry := 0 }, isInit)

/-- The branch of `newfs_init` for a disk without magic number: allocate the root
inode and flush it. -/
def formatRoot (fs : Fs) (root : Dentry) (junk : Junk) : Option Fs := do
  let (super, root) := allocInode (blksSz fs.disk.szIo) fs.super root junk
  let disk ← syncInode [root] junk 1 root fs.disk
  return { disk := disk, super := super, heap := [root] }

/-- `newfs_init`. -/
def init (disk : Disk) (junk : Junk) : Option Fs := do
  let root ← newDentry [slash] .dir
  let (super, isInit) ← loadSuper disk
  let fs : Fs := { disk := disk, super := super, heap := [root] }
  let fs ← (if isInit then formatRoot fs root junk else some fs)
  let (fs, inode) ← readInode fs .dir 0
  let root ← fs.heap[0]?
  return fs.setInode 0 root inode

/-- The superblock that `newfs_destroy` writes. -/
def Super.toDisk (super : Super) : SuperD where
  magicNum := magicNum
  mapInodeBlks := super.mapInodeBlks
  mapInodeOffset := super.mapInodeOffset
  mapDataBlks := super.mapDataBlks
  mapDataOffset := super.mapDataOffset
  inodeOffset := super.inodeOffset
  dataOffset := super.dataOffset
  szUsage := super.szUsage

/-- `newfs_destroy`: the disk it leaves.  Each recursive flush goes to dentries
further up the arena, so the number of dentries bounds the depth. -/
def destroy (fs : Fs) (junk : Junk) : Option Disk :=
  if fs.super.isMounted = false then some fs.disk
  else do
    let blks := blksSz fs.disk.szIo
    let root ← fs.heap[fs.super.rootDentry]?
    let disk ← syncInode fs.heap junk fs.heap.length root fs.disk
    let superD := fs.super.toDisk
    let disk ← driverWrite disk superOfs (superD.encode junk) sizeofSuperD
    let disk ← driverWrite disk superD.mapInodeOffset fs.super.mapInode
      (superD.mapInodeBlks * blks)
    driverWrite disk superD.mapDataOffset fs.super.mapData (superD.mapDataBlks * blks)

end OperateSystem.Newfs

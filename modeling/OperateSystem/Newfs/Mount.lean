import OperateSystem.Newfs.Flush
import OperateSystem.Newfs.Growth

/-!
# Mounting and unmounting

What a disk left by `newfs_destroy` looks like (`Image`), what holds of a
mounted file system whatever has been done to it (`Mounted`), and how the two
pass into each other.  The device is 4 MiB with an IO unit that divides the
logical block.
-/

namespace OperateSystem.Newfs

open OperateSystem.Bitmap
open OperateSystem.ByteStore

/-- The device newfs is laid out for. -/
structure Geometry (disk : Disk) : Prop where
  size_eq : disk.size = 4194304
  szIo_dvd : disk.szIo ∣ 1024

/-- A new device. -/
def blankDisk (szIo : ℕ) : Disk := ⟨fun _ => 0, 4194304, szIo⟩

/-- The inode record of `ino` on disk. -/
def diskInode (bytes : ℕ → Byte) (ino : ℕ) : InodeD :=
  InodeD.decode (slice bytes (3072 + 32 * ino) 32)

/-- Entry `i` of the directory `ino` on disk. -/
def diskEntry (bytes : ℕ → Byte) (ino i : ℕ) : DentryD :=
  DentryD.decode (slice bytes (130048 + 8192 * ino + 140 * i) 140)

def diskMapInode (bytes : ℕ → Byte) : List Byte := slice bytes 1024 1024
def diskMapData (bytes : ℕ → Byte) : List Byte := slice bytes 2048 1024
def diskSuper (bytes : ℕ → Byte) : SuperD := SuperD.decode (slice bytes 0 52)

section Access

variable {disk : Disk} (hdisk : Geometry disk)

include hdisk

theorem Geometry.szIo_pos : 0 < disk.szIo :=
  Nat.pos_of_dvd_of_pos hdisk.szIo_dvd (by decide)

theorem Geometry.blks : blksSz disk.szIo = 1024 := blksSz_of_dvd hdisk.szIo_dvd

theorem Geometry.alignedEnd_le {ofs n : Int} (hofs : 0 ≤ ofs) (hn : 0 ≤ n)
    (hend : ofs + n ≤ 4194304) : alignedEnd disk.szIo ofs n ≤ disk.size := by
  rw [alignedEnd, hdisk.blks, hdisk.size_eq]
  obtain ⟨⟨lo, hlo⟩, -, hle, -⟩ := roundDown_spec hofs (show (0 : Int) < 1024 by decide)
  obtain ⟨⟨hi, hhi⟩, -, hlt⟩ := roundUp_spec
    (show 0 ≤ n + (ofs - roundDown ofs 1024) by omega) (show (0 : Int) < 1024 by decide)
  simp only [hlo] at hhi hlt ⊢
  simp only [hhi] at hlt ⊢
  omega

theorem Geometry.read {offset size : Int} {ofs n : ℕ} (hofs : offset = ofs) (hn : size = n)
    (hend : ofs + n ≤ 4194304) :
    driverRead disk offset size = some (slice disk.bytes ofs n) := by
  subst hofs hn
  rw [driverRead_eq hdisk.szIo_pos (by omega) (by omega)
    (hdisk.alignedEnd_le (by omega) (by omega) (by omega))]
  simp only [Int.toNat_natCast]

/-- Writing a whole buffer. -/
theorem Geometry.write {offset size : Int} {ofs : ℕ} {content : List Byte} (hofs : offset = ofs)
    (hn : size = content.length) (hend : ofs + content.length ≤ 4194304) :
    driverWrite disk offset content size
      = some { disk with bytes := overwrite disk.bytes ofs content } := by
  subst hofs hn
  rw [driverWrite_eq hdisk.szIo_pos (by omega) (by omega) (by omega)
    (hdisk.alignedEnd_le (by omega) (by omega) (by omega))]
  simp only [Int.toNat_natCast, List.take_length]

/-- Writing keeps the geometry. -/
theorem Geometry.bytes (bytes : ℕ → Byte) : Geometry { disk with bytes := bytes } :=
  ⟨hdisk.size_eq, hdisk.szIo_dvd⟩

end Access

/-- A disk that `newfs_destroy` has left. -/
structure Image (disk : Disk) : Prop where
  geometry : Geometry disk
  magic : (diskSuper disk.bytes).magicNum = magicNum
  mapInodeBlks : (diskSuper disk.bytes).mapInodeBlks = 1
  mapInodeOffset : (diskSuper disk.bytes).mapInodeOffset = 1024
  mapDataBlks : (diskSuper disk.bytes).mapDataBlks = 1
  mapDataOffset : (diskSuper disk.bytes).mapDataOffset = 2048
  rootIno : slice disk.bytes 3072 4 = encodeInt 0
  rootBit : bit (diskMapInode disk.bytes) 0 = true

/-- What holds of a mounted file system after any operations. -/
structure Mounted (fs : Fs) : Prop where
  geometry : Geometry fs.disk
  mapInodeBlks : fs.super.mapInodeBlks = 1
  mapInodeOffset : fs.super.mapInodeOffset = 1024
  mapDataBlks : fs.super.mapDataBlks = 1
  mapDataOffset : fs.super.mapDataOffset = 2048
  mapInodeLength : fs.super.mapInode.length = 1024
  mapDataLength : fs.super.mapData.length = 1024
  isMounted : fs.super.isMounted = true
  rootDentry : fs.super.rootDentry = 0
  root : ∃ root inode, fs.heap[0]? = some root ∧ root.ftype = .dir ∧
    root.inode = some inode ∧ inode.ino = 0
  rootIno : slice fs.disk.bytes 3072 4 = encodeInt 0
  rootBit : bit fs.super.mapInode 0 = true

/-- No operation breaks `Mounted`. -/
theorem Mounted.grows {fs fs' : Fs} (h : Mounted fs) (hgrows : fs.Grows fs') : Mounted fs' := by
  have hsuper := hgrows.super
  refine ⟨hgrows.disk ▸ h.geometry, ?_, ?_, ?_, ?_, ?_, ?_, ?_, ?_, ?_, ?_, ?_⟩
  · rw [hsuper.rest]; exact h.mapInodeBlks
  · rw [hsuper.rest]; exact h.mapInodeOffset
  · rw [hsuper.rest]; exact h.mapDataBlks
  · rw [hsuper.rest]; exact h.mapDataOffset
  · rw [hsuper.mapInode.length_eq, h.mapInodeLength]
  · rw [hsuper.mapData.length_eq, h.mapDataLength]
  · rw [hsuper.rest]; exact h.isMounted
  · rw [hsuper.rest]; exact h.rootDentry
  · obtain ⟨root, inode, hroot, hdir, hinode, hino⟩ := h.root
    obtain ⟨root', hroot', hsame⟩ := hgrows.heap 0 root hroot
    obtain ⟨inode', hinode', hino'⟩ := hsame.inode inode hinode
    exact ⟨root', inode', hroot', hsame.ftype.trans hdir, hinode', hino'.trans hino⟩
  · rw [hgrows.disk]; exact h.rootIno
  · exact hsuper.mapInode.bits 0 h.rootBit

section Unmount

/-- The contents of the device after unmounting, given what the flush left: the
superblock and the two bitmaps are written over it. -/
def unmountBytes (super : Super) (junk : Junk) (bytes : ℕ → Byte) : ℕ → Byte :=
  overwrite (overwrite (overwrite bytes 0 (super.toDisk.encode junk)) 1024 super.mapInode)
    2048 super.mapData

variable {fs : Fs}

/-- Unmounting flushes the tree from the root and then writes the metadata. -/
theorem destroy_eq (h : Mounted fs) {root : Dentry} (hroot : fs.heap[0]? = some root)
    (junk : Junk) :
    destroy fs junk = (syncInode fs.heap junk fs.heap.length root fs.disk).map fun disk =>
      { disk with bytes := unmountBytes fs.super junk disk.bytes } := by
  rw [destroy, if_neg (by simp [h.isMounted])]
  simp only [h.rootDentry, hroot, Option.bind_eq_bind, Option.bind_some]
  cases hsync : syncInode fs.heap junk fs.heap.length root fs.disk with
  | none => rfl
  | some disk =>
      obtain ⟨hsize, hszIo⟩ := syncInode_geometry hsync
      have hdisk : Geometry disk := ⟨hsize.trans h.geometry.size_eq, hszIo ▸ h.geometry.szIo_dvd⟩
      have hinode : fs.super.toDisk.mapInodeBlks * blksSz fs.disk.szIo = 1024 := by
        rw [h.geometry.blks, Super.toDisk, h.mapInodeBlks]
        rfl
      have hdata : fs.super.toDisk.mapDataBlks * blksSz fs.disk.szIo = 1024 := by
        rw [h.geometry.blks, Super.toDisk, h.mapDataBlks]
        rfl
      have hinodeOfs : fs.super.toDisk.mapInodeOffset = 1024 := h.mapInodeOffset
      have hdataOfs : fs.super.toDisk.mapDataOffset = 2048 := h.mapDataOffset
      rw [Option.bind_some,
        hdisk.write (show superOfs = (0 : ℕ) by rfl) (by simp [sizeofSuperD]) (by simp),
        Option.bind_some, hinode, hinodeOfs,
        (hdisk.bytes _).write (show (1024 : Int) = (1024 : ℕ) by rfl) (by simp [h.mapInodeLength])
          (by simp [h.mapInodeLength]),
        Option.bind_some, hdata, hdataOfs,
        (hdisk.bytes _).write (show (2048 : Int) = (2048 : ℕ) by rfl) (by simp [h.mapDataLength])
          (by simp [h.mapDataLength])]
      rfl

variable (super : Super) (junk : Junk) (bytes : ℕ → Byte)

/-- The metadata written at unmount stays below the inode table. -/
theorem unmountBytes_of_ge (hlength : super.mapInode.length = 1024)
    (hlength' : super.mapData.length = 1024) {addr : ℕ} (haddr : 3072 ≤ addr) :
    unmountBytes super junk bytes addr = bytes addr := by
  rw [unmountBytes, overwrite_of_ge _ _ _ (by omega), overwrite_of_ge _ _ _ (by omega),
    overwrite_of_ge _ _ _ (by simp; omega)]

theorem diskMapData_unmountBytes (hlength : super.mapData.length = 1024) :
    diskMapData (unmountBytes super junk bytes) = super.mapData := by
  have hslice := slice_overwrite_self
    (overwrite (overwrite bytes 0 (super.toDisk.encode junk)) 1024 super.mapInode) 2048
    super.mapData
  rwa [hlength] at hslice

theorem diskMapInode_unmountBytes (hlength : super.mapInode.length = 1024) :
    diskMapInode (unmountBytes super junk bytes) = super.mapInode := by
  have hslice := slice_overwrite_self (overwrite bytes 0 (super.toDisk.encode junk)) 1024
    super.mapInode
  rw [hlength] at hslice
  rw [diskMapInode, unmountBytes, slice_overwrite_of_disjoint _ _ _ (Or.inl (by omega)), hslice]

theorem diskSuper_unmountBytes :
    diskSuper (unmountBytes super junk bytes) = SuperD.decode (super.toDisk.encode junk) := by
  have hslice := slice_overwrite_self bytes 0 (super.toDisk.encode junk)
  rw [SuperD.length_encode] at hslice
  rw [diskSuper, unmountBytes, slice_overwrite_of_disjoint _ _ _ (Or.inl (by omega)),
    slice_overwrite_of_disjoint _ _ _ (Or.inl (by omega)), hslice]

/-- Whatever has happened since the mount, no write of a flush gives the root's
slot another number. -/
theorem rootIno_overwrite {heap : List Dentry} {szIo : ℕ} {dentry : Dentry} {ofs : ℕ}
    {content : List Byte} (hflush : Flushes heap junk szIo dentry ofs content)
    (hroot : slice bytes 3072 4 = encodeInt 0) :
    slice (overwrite bytes ofs content) 3072 4 = encodeInt 0 := by
  cases hflush with
  | @inode inode hinode hofs =>
      by_cases hzero : inode.ino = 0
      · have hslice := slice_overwrite_self bytes 3072
          (InodeD.encode ⟨0, inode.size, dentry.ftype, inode.dirCnt⟩ junk 3072)
        rw [InodeD.length_encode] at hslice
        rw [hzero]
        have hfour := congrArg (List.take 4) hslice
        rw [take_slice _ _ _ _ (by decide)] at hfour
        exact hfour
      · rw [slice_overwrite_of_disjoint _ _ _ _, hroot]
        simp only [inoOfs, inodeOfs, inodeSize, InodeD.length_encode] at hofs ⊢
        omega
  | @entry inode i ptr sub ofs' hinode hdir hptr hsub heq hofs =>
      rw [slice_overwrite_of_disjoint _ _ _ (Or.inl _), hroot]
      simp only [daOfs, dataOfs, dataPerFile, dataSize, sizeofDentryD] at heq hofs
      omega
  | @data inode hinode hfile hofs =>
      rw [slice_overwrite_of_disjoint _ _ _ (Or.inl _), hroot]
      simp only [daOfs, dataOfs, dataPerFile, dataSize] at hofs ⊢
      omega

/-- What unmounting leaves is an image. -/
theorem destroy_image (h : Mounted fs) {junk : Junk} {disk : Disk}
    (hdestroy : destroy fs junk = some disk) :
    Image disk ∧ diskMapInode disk.bytes = fs.super.mapInode ∧
      diskMapData disk.bytes = fs.super.mapData := by
  obtain ⟨root, inode, hroot, -, -, -⟩ := h.root
  rw [destroy_eq h hroot] at hdestroy
  obtain ⟨flushed, hsync, rfl⟩ := Option.map_eq_some_iff.mp hdestroy
  obtain ⟨hsize, hszIo⟩ := syncInode_geometry hsync
  have hmapInode := diskMapInode_unmountBytes fs.super junk flushed.bytes h.mapInodeLength
  have hsuper := (diskSuper_unmountBytes fs.super junk flushed.bytes).trans
    (SuperD.decode_encode fs.super.toDisk junk)
  have hrootIno : slice flushed.bytes 3072 4 = encodeInt 0 := by
    apply syncInode_preserves (fun disk => slice disk.bytes 3072 4 = encodeInt 0) _ h.rootIno
      hsync
    intro dentry ofs content disk _ hflush hdisk
    exact rootIno_overwrite junk disk.bytes hflush hdisk
  refine ⟨⟨?_, ?_, ?_, ?_, ?_, ?_, ?_, ?_⟩, hmapInode,
    diskMapData_unmountBytes fs.super junk flushed.bytes h.mapDataLength⟩
  · exact ⟨hsize.trans h.geometry.size_eq, hszIo ▸ h.geometry.szIo_dvd⟩
  · rw [hsuper]; rfl
  · rw [hsuper]; simp only [Super.toDisk, h.mapInodeBlks]; rfl
  · rw [hsuper]; simp only [Super.toDisk, h.mapInodeOffset]; rfl
  · rw [hsuper]; simp only [Super.toDisk, h.mapDataBlks]; rfl
  · rw [hsuper]; simp only [Super.toDisk, h.mapDataOffset]; rfl
  · rw [← hrootIno]
    apply slice_congr
    intro addr haddr _
    exact unmountBytes_of_ge _ _ _ h.mapInodeLength h.mapDataLength haddr
  · rw [hmapInode]
    exact h.rootBit

end Unmount

section Remount

/-- `newfs_super` right after the superblock and bitmaps of an image have been
read.  `max_ino` and `max_data` stay zero. -/
def imageSuper (bytes : ℕ → Byte) : Super where
  szUsage := (diskSuper bytes).szUsage
  maxIno := 0
  maxData := 0
  mapInode := diskMapInode bytes
  mapInodeBlks := 1
  mapInodeOffset := 1024
  mapData := diskMapData bytes
  mapDataBlks := 1
  mapDataOffset := 2048
  inodeOffset := 0
  dataOffset := 0
  isMounted := true
  rootDentry := 0

/-- The root dentry that `newfs_init` makes. -/
def rootDentry : Dentry where
  fname := slash :: List.replicate 127 0
  ftype := .dir
  ino := -1
  inode := none

theorem newDentry_root : newDentry [slash] .dir = some rootDentry := rfl

/-- The root inode before its entries are read. -/
def rootInode (bytes : ℕ → Byte) : Inode :=
  ⟨0, (diskInode bytes 0).size, 0, [], []⟩

variable {disk : Disk}

theorem loadSuper_image (h : Image disk) :
    loadSuper disk = some (imageSuper disk.bytes, false) := by
  have hread : driverRead disk superOfs sizeofSuperD = some (slice disk.bytes 0 52) :=
    h.geometry.read (by rfl) (by rfl) (by decide)
  have hmagic : decide ((diskSuper disk.bytes).magicNum ≠ magicNum) = false :=
    decide_eq_false (not_not.mpr h.magic)
  have hmapInode : driverRead disk 1024 1024 = some (diskMapInode disk.bytes) :=
    h.geometry.read (by rfl) (by rfl) (by decide)
  have hmapData : driverRead disk 2048 1024 = some (diskMapData disk.bytes) :=
    h.geometry.read (by rfl) (by rfl) (by decide)
  rw [loadSuper, hread, Option.bind_eq_bind, Option.bind_some, ← diskSuper]
  simp only [hmagic, Bool.false_eq_true, if_false, h.mapInodeOffset, h.mapInodeBlks,
    h.mapDataOffset, h.mapDataBlks, h.geometry.blks, Int.one_mul, hmapInode, hmapData,
    Option.bind_some]
  rfl

theorem diskInode_zero (bytes : ℕ → Byte) :
    diskInode bytes 0 = InodeD.decode (slice bytes 3072 32) := by
  simp only [diskInode, Nat.mul_zero, Nat.add_zero]

theorem diskInode_root_ino {bytes : ℕ → Byte} (hroot : slice bytes 3072 4 = encodeInt 0) :
    (diskInode bytes 0).ino = 0 := by
  have hsplit : slice bytes 3072 32 = encodeInt 0 ++ slice bytes 3076 28 := by
    rw [← hroot]
    exact slice_add bytes 3072 28 4
  rw [diskInode_zero, hsplit]
  simp only [InodeD.decode, decodeInt_encodeInt_append, toInt32_zero]

/-- Loading the root reads its record and its entries. -/
theorem readInode_root {fs : Fs} (hdisk : Geometry fs.disk)
    (hroot : slice fs.disk.bytes 3072 4 = encodeInt 0) :
    readInode fs .dir 0 = readDentrys 0 (diskInode fs.disk.bytes 0).dirCnt.toNat 0 fs
      (rootInode fs.disk.bytes) := by
  have hread : driverRead fs.disk (inoOfs 0) sizeofInodeD = some (slice fs.disk.bytes 3072 32) :=
    hdisk.read (by rfl) (by rfl) (by decide)
  have hino := diskInode_root_ino hroot
  rw [readInode, hread, Option.bind_eq_bind, Option.bind_some, ← diskInode_zero]
  simp only [hino]
  rw [rootInode]

/-- Mounting an image reads the root directory. -/
theorem init_image (h : Image disk) (junk : Junk) :
    init disk junk =
      (readDentrys 0 (diskInode disk.bytes 0).dirCnt.toNat 0
        ⟨disk, imageSuper disk.bytes, [rootDentry]⟩ (rootInode disk.bytes)).bind
        fun loaded => loaded.1.heap[0]?.bind fun root =>
          some (loaded.1.setInode 0 root loaded.2) := by
  have hread := @readInode_root ⟨disk, imageSuper disk.bytes, [rootDentry]⟩ h.geometry
    h.rootIno
  rw [init, newDentry_root, loadSuper_image h, Option.bind_eq_bind, Option.bind_some,
    Option.bind_eq_bind, Option.bind_some]
  simp only [Bool.false_eq_true, if_false, Option.bind_eq_bind, Option.bind_some, hread]
  rfl

/-- The state after mounting an image, in terms of the loop that reads the root
directory. -/
theorem init_image_some (h : Image disk) {junk : Junk} {fs : Fs}
    (hinit : init disk junk = some fs) :
    ∃ fs₁ inode more,
      readDentrys 0 (diskInode disk.bytes 0).dirCnt.toNat 0
        ⟨disk, imageSuper disk.bytes, [rootDentry]⟩ (rootInode disk.bytes)
        = some (fs₁, inode) ∧
      fs₁.heap = rootDentry :: more ∧ (∀ sub ∈ more, sub.inode = none) ∧
      fs = fs₁.setInode 0 rootDentry inode := by
  rw [init_image h] at hinit
  obtain ⟨⟨fs₁, inode⟩, hread, hroot⟩ := Option.bind_eq_some_iff.mp hinit
  obtain ⟨-, -, ⟨more, hmore, hnull⟩, -⟩ := readDentrys_grows hread
  have hheap : fs₁.heap = rootDentry :: more := hmore
  refine ⟨fs₁, inode, more, hread, hheap, hnull, ?_⟩
  rw [hheap] at hroot
  simpa using hroot.symm

/-- Mounting an image gives a mounted file system; the bitmaps only gain bits. -/
theorem init_image_mounted (h : Image disk) {junk : Junk} {fs : Fs}
    (hinit : init disk junk = some fs) :
    Mounted fs ∧ fs.disk = disk ∧ (imageSuper disk.bytes).Grows fs.super := by
  obtain ⟨fs₁, inode, more, hread, hheap, -, rfl⟩ := init_image_some h hinit
  obtain ⟨hdisk, hsuper, -, hino⟩ := readDentrys_grows hread
  have hlength : (imageSuper disk.bytes).mapInode.length = 1024 := length_slice _ _ _
  have hlength' : (imageSuper disk.bytes).mapData.length = 1024 := length_slice _ _ _
  have hroot : (fs₁.setInode 0 rootDentry inode).heap[0]?
      = some { rootDentry with inode := some inode } := by
    simp [Fs.setInode, hheap]
  refine ⟨⟨?_, ?_, ?_, ?_, ?_, ?_, ?_, ?_, ?_, ⟨_, inode, hroot, rfl, rfl, hino⟩, ?_, ?_⟩, hdisk,
    hsuper⟩
  · exact hdisk ▸ h.geometry
  all_goals simp only [Fs.setInode]
  · rw [hsuper.rest]; rfl
  · rw [hsuper.rest]; rfl
  · rw [hsuper.rest]; rfl
  · rw [hsuper.rest]; rfl
  · rw [hsuper.mapInode.length_eq, hlength]
  · rw [hsuper.mapData.length_eq, hlength']
  · rw [hsuper.rest]; rfl
  · rw [hsuper.rest]; rfl
  · rw [hdisk]
    exact h.rootIno
  · exact hsuper.mapInode.bits 0 h.rootBit

end Remount

section Format

/-- `newfs_super` after formatting, with the root's bit set in `mapInode`. -/
def freshSuper (mapInode : List Byte) : Super where
  szUsage := 0
  maxIno := inodeNum
  maxData := dataNum
  mapInode := mapInode
  mapInodeBlks := 1
  mapInodeOffset := 1024
  mapData := slice (fun _ => 0) 2048 1024
  mapDataBlks := 1
  mapDataOffset := 2048
  inodeOffset := 0
  dataOffset := 0
  isMounted := true
  rootDentry := 0

/-- The record of the empty root directory. -/
def freshRecord (junk : Junk) : List Byte := InodeD.encode ⟨0, 0, .dir, 0⟩ junk 3072

/-- The dentry of the empty root directory. -/
def freshRoot : Dentry := { rootDentry with ino := 0, inode := some ⟨0, 0, 0, [], []⟩ }

/-- The file system right after formatting a blank device. -/
def freshFs (szIo : ℕ) (junk : Junk) (mapInode : List Byte) : Fs where
  disk := ⟨overwrite (fun _ => 0) 3072 (freshRecord junk), 4194304, szIo⟩
  super := freshSuper mapInode
  heap := [freshRoot]

/-- The file system right after formatting a device whose bitmaps are blank. -/
def formattedFs (disk : Disk) (junk : Junk) (mapInode : List Byte) : Fs where
  disk := { disk with bytes := overwrite disk.bytes 3072 (freshRecord junk) }
  super := freshSuper mapInode
  heap := [freshRoot]

/-- A device without file system on which both bitmaps are blank. -/
structure Unformatted (disk : Disk) : Prop where
  geometry : Geometry disk
  magic : (diskSuper disk.bytes).magicNum ≠ magicNum
  mapInode : diskMapInode disk.bytes = slice (fun _ => 0) 1024 1024
  mapData : diskMapData disk.bytes = slice (fun _ => 0) 2048 1024

theorem bit_zeros (ofs n i : ℕ) : bit (slice (fun _ => (0 : Byte)) ofs n) i = false := by
  have hzero : (slice (fun _ => (0 : Byte)) ofs n).getD (i / 8) 0 = 0 := by
    rw [List.getD_eq_getElem?_getD, getElem?_slice]
    split <;> rfl
  rw [bit, hzero]
  simp

/-- The first inode of a blank device is number 0. -/
theorem claimBit_zeros :
    ∃ mapInode, claimBit (slice (fun _ => (0 : Byte)) 1024 1024) 0 = some (0, mapInode) ∧
      Claimed (slice (fun _ => (0 : Byte)) 1024 1024) 0 mapInode := by
  have hclear : 0 < (clearBits (slice (fun _ => (0 : Byte)) 1024 1024)).card := by
    apply Finset.card_pos.mpr
    exact ⟨0, mem_clearBits.mpr ⟨by simp, bit_zeros _ _ _⟩⟩
  obtain ⟨c, mapInode, hclaim, hclaimed⟩ := exists_claimBit (by decide) hclear
  have hc : c = 0 := by
    by_contra hne
    have hset := hclaimed.least 0 (Nat.pos_of_ne_zero hne)
    rw [bit_zeros] at hset
    cases hset
  subst hc
  exact ⟨mapInode, hclaim, hclaimed⟩

theorem diskInode_fresh (bytes : ℕ → Byte) (junk : Junk) :
    diskInode (overwrite bytes 3072 (freshRecord junk)) 0 = ⟨0, 0, .dir, 0⟩ := by
  have hslice := slice_overwrite_self bytes 3072 (freshRecord junk)
  rw [freshRecord, InodeD.length_encode, ← freshRecord] at hslice
  have hdir : toInt32 FileType.dir.toInt = 1 := toInt32_of_range (by decide) (by decide)
  rw [diskInode_zero, hslice, freshRecord, InodeD.decode_encode, toInt32_zero, hdir]
  rfl

theorem slice_freshRecord (bytes : ℕ → Byte) (junk : Junk) :
    slice (overwrite bytes 3072 (freshRecord junk)) 3072 4 = encodeInt 0 := by
  have hslice := slice_overwrite_self bytes 3072 (freshRecord junk)
  have hfour := congrArg (List.take 4) hslice
  rw [freshRecord, InodeD.length_encode, take_slice _ _ _ _ (by decide)] at hfour
  exact hfour

/-- A device without the magic number gets a new superblock; the bitmaps are those found on
it. -/
def unrecognisedSuper (bytes : ℕ → Byte) : Super :=
  { freshSuper (diskMapInode bytes) with mapData := diskMapData bytes }

theorem loadSuper_unrecognised {disk : Disk} (hdisk : Geometry disk)
    (hmagic : (diskSuper disk.bytes).magicNum ≠ magicNum) :
    loadSuper disk = some (unrecognisedSuper disk.bytes, true) := by
  have hread : driverRead disk superOfs sizeofSuperD = some (slice disk.bytes 0 52) :=
    hdisk.read (by rfl) (by rfl) (by decide)
  have hinit : decide ((diskSuper disk.bytes).magicNum ≠ magicNum) = true := decide_eq_true hmagic
  have hmapInode : driverRead disk mapInodeOfs 1024 = some (diskMapInode disk.bytes) :=
    hdisk.read (by rfl) (by rfl) (by decide)
  have hmapData : driverRead disk mapDataOfs 1024 = some (diskMapData disk.bytes) :=
    hdisk.read (by rfl) (by rfl) (by decide)
  rw [loadSuper, hread, Option.bind_eq_bind, Option.bind_some, ← diskSuper]
  simp only [hinit, if_true, mapInodeBlocks, mapDataBlocks, hdisk.blks, Int.one_mul,
    hmapInode, hmapData, Option.bind_some]
  rfl

/-- Flushing the empty root writes its record. -/
theorem syncInode_formatted {disk : Disk} (hdisk : Geometry disk) (junk : Junk) :
    syncInode [freshRoot] junk 1 freshRoot disk
      = some { disk with bytes := overwrite disk.bytes 3072 (freshRecord junk) } := by
  have hwrite : driverWrite disk (inoOfs 0) (freshRecord junk) sizeofInodeD
      = some { disk with bytes := overwrite disk.bytes 3072 (freshRecord junk) } :=
    hdisk.write (show inoOfs 0 = ((3072 : ℕ) : Int) by rfl)
      (by simp [freshRecord, sizeofInodeD]) (by simp [freshRecord])
  rw [syncInode]
  exact Option.bind_eq_some_iff.mpr ⟨_, rfl, Option.bind_eq_some_iff.mpr ⟨_, hwrite, rfl⟩⟩

section Unformatted

variable {disk : Disk} (h : Unformatted disk)

include h

/-- Formatting gives an empty root directory. -/
theorem init_unformatted (junk : Junk) :
    ∃ mapInode, Claimed (slice (fun _ => (0 : Byte)) 1024 1024) 0 mapInode ∧
      init disk junk = some (formattedFs disk junk mapInode) := by
  obtain ⟨mapInode, hclaim, hclaimed⟩ := claimBit_zeros
  refine ⟨mapInode, hclaimed, ?_⟩
  have halloc : allocInode (blksSz disk.szIo) (freshSuper (slice (fun _ => 0) 1024 1024))
      rootDentry junk = (freshSuper mapInode, freshRoot) := by
    have hscan : claimBit (freshSuper (slice (fun _ => 0) 1024 1024)).mapInode 0
        = some (0, mapInode) := hclaim
    rw [allocInode, hscan]
    rfl
  have hformat : formatRoot ⟨disk, freshSuper (slice (fun _ => 0) 1024 1024), [rootDentry]⟩
      rootDentry junk = some (formattedFs disk junk mapInode) := by
    rw [formatRoot]
    simp only [halloc]
    rw [syncInode_formatted h.geometry junk]
    rfl
  have hread : readInode (formattedFs disk junk mapInode) .dir 0
      = some (formattedFs disk junk mapInode, ⟨0, 0, 0, [], []⟩) := by
    rw [readInode_root (h.geometry.bytes _) (slice_freshRecord disk.bytes junk), rootInode]
    have hdisk := diskInode_fresh disk.bytes junk
    rw [show (formattedFs disk junk mapInode).disk.bytes
      = overwrite disk.bytes 3072 (freshRecord junk) from rfl, hdisk]
    rfl
  have hsuper : unrecognisedSuper disk.bytes = freshSuper (slice (fun _ => 0) 1024 1024) := by
    rw [unrecognisedSuper, h.mapInode, h.mapData]
    rfl
  rw [init, newDentry_root, loadSuper_unrecognised h.geometry h.magic, hsuper,
    Option.bind_eq_bind, Option.bind_some, Option.bind_eq_bind, Option.bind_some]
  simp only [if_true, hformat, Option.bind_eq_bind, Option.bind_some, hread]
  rfl

/-- A freshly formatted device is mounted. -/
theorem formattedFs_mounted (junk : Junk) {mapInode : List Byte}
    (hclaimed : Claimed (slice (fun _ => (0 : Byte)) 1024 1024) 0 mapInode) :
    Mounted (formattedFs disk junk mapInode) where
  geometry := h.geometry.bytes _
  mapInodeBlks := rfl
  mapInodeOffset := rfl
  mapDataBlks := rfl
  mapDataOffset := rfl
  mapInodeLength := by
    change mapInode.length = 1024
    rw [hclaimed.length_eq, length_slice]
  mapDataLength := length_slice _ _ _
  isMounted := rfl
  rootDentry := rfl
  root := ⟨freshRoot, ⟨0, 0, 0, [], []⟩, rfl, rfl, rfl, rfl⟩
  rootIno := slice_freshRecord disk.bytes junk
  rootBit := by
    change bit mapInode 0 = true
    rw [hclaimed.bit_eq]
    simp

end Unformatted

variable {szIo : ℕ} (hszIo : szIo ∣ 1024)

include hszIo

theorem unformatted_blankDisk : Unformatted (blankDisk szIo) where
  geometry := ⟨rfl, hszIo⟩
  magic := by
    change (diskSuper fun _ => 0).magicNum ≠ magicNum
    decide +kernel
  mapInode := rfl
  mapData := rfl

theorem geometry_freshFs (junk : Junk) (mapInode : List Byte) :
    Geometry (freshFs szIo junk mapInode).disk := ⟨rfl, hszIo⟩

/-- Formatting a blank device gives an empty root directory. -/
theorem init_blank (junk : Junk) :
    ∃ mapInode, Claimed (slice (fun _ => (0 : Byte)) 1024 1024) 0 mapInode ∧
      init (blankDisk szIo) junk = some (freshFs szIo junk mapInode) :=
  init_unformatted (unformatted_blankDisk hszIo) junk

theorem freshFs_mounted (junk : Junk) {mapInode : List Byte}
    (hclaimed : Claimed (slice (fun _ => (0 : Byte)) 1024 1024) 0 mapInode) :
    Mounted (freshFs szIo junk mapInode) :=
  formattedFs_mounted (unformatted_blankDisk hszIo) junk hclaimed

end Format

end OperateSystem.Newfs

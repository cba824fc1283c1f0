import OperateSystem.Newfs.Neutral

/-!
# Mounting a device without file system

`newfs_init` takes the root's inode from the inode bitmap, like that of any other
dentry, and keeps both bitmaps as they are on the device.  So it makes an empty file
system of a device without magic number just when both bitmaps are blank there.
-/

namespace OperateSystem.Newfs

open OperateSystem.Bitmap
open OperateSystem.ByteStore

/-- What a new file system looks like in memory: the root is number 0 and empty, its bit
is the only one of the inode bitmap, and the data bitmap has none. -/
structure NewInMemory (fs : Fs) : Prop where
  root : ∃ root inode, fs.heap[fs.super.rootDentry]? = some root ∧ root.ftype = .dir ∧
    root.inode = some inode ∧ inode.ino = 0 ∧ inode.dentrys = [] ∧ inode.dirCnt = 0
  mapInode : ∀ i, bit fs.super.mapInode i = true ↔ i = 0
  mapData : ∀ i, bit fs.super.mapData i = false

/-- The same on the device. -/
structure NewOnDisk (disk : Disk) : Prop where
  magic : (diskSuper disk.bytes).magicNum = magicNum
  root : (diskInode disk.bytes 0).ino = 0 ∧ (diskInode disk.bytes 0).ftype = .dir ∧
    (diskInode disk.bytes 0).dirCnt = 0
  mapInode : ∀ i, bit (diskMapInode disk.bytes) i = true ↔ i = 0
  mapData : ∀ i, bit (diskMapData disk.bytes) i = false

/-- Mounting the device and unmounting it again makes a new file system. -/
def Formats (disk : Disk) (junk junk' : Junk) : Prop :=
  ∃ fs disk', init disk junk = some fs ∧ NewInMemory fs ∧ destroy fs junk' = some disk' ∧
    NewOnDisk disk'

/-- Both bitmap regions of the device are zero. -/
def BlankMaps (bytes : ℕ → Byte) : Prop := ∀ addr, 1024 ≤ addr → addr < 3072 → bytes addr = 0

section Blank

variable {bytes : ℕ → Byte}

/-- A map without set bits consists of zeros. -/
theorem bytes_of_bits {ofs n : ℕ} (h : ∀ i, bit (slice bytes ofs n) i = false) {j : ℕ}
    (hj : j < n) : bytes (ofs + j) = 0 := by
  apply BitVec.eq_of_getLsbD_eq
  intro k hk
  have hget : (slice bytes ofs n).getD j 0 = bytes (ofs + j) := by
    rw [List.getD_eq_getElem?_getD, getElem?_slice, if_pos hj]
    rfl
  have hbit := h (j * 8 + k)
  have hdiv : (j * 8 + k) / 8 = j := by omega
  have hmod : (j * 8 + k) % 8 = k := by omega
  rw [bit, hdiv, hmod, hget] at hbit
  rw [hbit]
  simp

theorem blankMaps_of_bits (hmapInode : ∀ i, bit (diskMapInode bytes) i = false)
    (hmapData : ∀ i, bit (diskMapData bytes) i = false) : BlankMaps bytes := by
  intro addr hlo hhi
  by_cases hmap : addr < 2048
  · have hbyte := bytes_of_bits hmapInode (show addr - 1024 < 1024 by omega)
    rwa [Nat.add_sub_cancel' hlo] at hbyte
  · have hbyte := bytes_of_bits hmapData (show addr - 2048 < 1024 by omega)
    rwa [Nat.add_sub_cancel' (not_lt.mp hmap)] at hbyte

end Blank

section Allocation

variable {blks : Int} {super : Super} {dentry : Dentry} {junk : Junk}

/-- With a full inode bitmap the dentry is left without an inode. -/
theorem allocInode_full (h : claimBit super.mapInode 0 = none) :
    allocInode blks super dentry junk = (super, dentry) := by
  rw [allocInode, h]

theorem allocInode_super {claim : ℕ × List Byte} (h : claimBit super.mapInode 0 = some claim) :
    (allocInode blks super dentry junk).1 = { super with mapInode := claim.2 } := by
  rw [allocInode, h]
  by_cases hlimit : (claim.1 : Int) = super.maxIno <;> simp [hlimit]

end Allocation

section Formatting

variable {disk : Disk} (hdisk : Geometry disk)
  (hmagic : (diskSuper disk.bytes).magicNum ≠ magicNum) {junk junk' : Junk}

include hdisk hmagic

/-- Formatting claims the first clear bit of the bitmap on the device for the root. -/
theorem init_unrecognised_some {fs : Fs} (h : init disk junk = some fs) :
    ∃ c mapInode, Claimed (diskMapInode disk.bytes) c mapInode ∧
      MapGrows mapInode fs.super.mapInode ∧ MapGrows (diskMapData disk.bytes) fs.super.mapData := by
  rw [init, newDentry_root, loadSuper_unrecognised hdisk hmagic, Option.bind_eq_bind,
    Option.bind_some, Option.bind_eq_bind, Option.bind_some] at h
  simp only [if_true, Option.bind_eq_bind] at h
  obtain ⟨formatted, hformat, h⟩ := Option.bind_eq_some_iff.mp h
  obtain ⟨⟨fs₁, inode⟩, hread, h⟩ := Option.bind_eq_some_iff.mp h
  obtain ⟨root, -, h⟩ := Option.bind_eq_some_iff.mp h
  cases h
  obtain ⟨-, hgrows, -⟩ := readInode_grows hread
  simp only [formatRoot, Option.bind_eq_bind] at hformat
  obtain ⟨disk', hsync, hformat⟩ := Option.bind_eq_some_iff.mp hformat
  cases hformat
  cases hclaim : claimBit (diskMapInode disk.bytes) 0 with
  | none =>
      -- Without an inode there is nothing to flush: an error code is dereferenced.
      rw [allocInode_full hclaim, syncInode] at hsync
      cases hsync
  | some claim =>
      rw [allocInode_super hclaim] at hgrows
      exact ⟨claim.1, claim.2, claimBit_some (by decide) hclaim, hgrows.mapInode, hgrows.mapData⟩

/-- A new file system has been made of blank bitmaps only. -/
theorem Formats.blankMaps (h : Formats disk junk junk') : BlankMaps disk.bytes := by
  obtain ⟨fs, disk', hinit, hnew, -, -⟩ := h
  obtain ⟨c, mapInode, hclaimed, hgrows, hgrowsData⟩ := init_unrecognised_some hdisk hmagic hinit
  have hzero : ∀ i, bit mapInode i = true → i = 0 := by
    intro i hi
    exact (hnew.mapInode i).mp (hgrows.bits i hi)
  have hroot : c = 0 := by
    apply hzero
    rw [hclaimed.bit_eq]
    simp
  apply blankMaps_of_bits
  · intro i
    by_contra hset
    rw [Bool.not_eq_false] at hset
    have hfirst : i = 0 := by
      apply hzero
      rw [hclaimed.bit_eq, hset, Bool.true_or]
    rw [hfirst, ← hroot, hclaimed.clear] at hset
    cases hset
  · intro i
    by_contra hset
    rw [Bool.not_eq_false] at hset
    have hstill := hgrowsData.bits i hset
    rw [hnew.mapData i] at hstill
    cases hstill

/-- With blank bitmaps the root gets number 0, and its record is what is read back. -/
theorem formats_of_blankMaps (hblank : BlankMaps disk.bytes) (junk junk' : Junk) :
    Formats disk junk junk' := by
  have h : Unformatted disk := by
    refine ⟨hdisk, hmagic, ?_, ?_⟩
    · apply slice_congr
      intro addr hlo hhi
      exact hblank addr hlo (by omega)
    · apply slice_congr
      intro addr hlo hhi
      exact hblank addr (by omega) hhi
  obtain ⟨mapInode, hclaimed, hinit⟩ := init_unformatted h junk
  have hmounted := formattedFs_mounted h junk hclaimed
  have hsync := syncInode_formatted (hdisk.bytes (overwrite disk.bytes 3072 (freshRecord junk)))
    junk'
  have hdestroy := destroy_eq hmounted (show (formattedFs disk junk mapInode).heap[0]?
    = some freshRoot from rfl) junk'
  have hflush : syncInode (formattedFs disk junk mapInode).heap junk'
      (formattedFs disk junk mapInode).heap.length freshRoot (formattedFs disk junk mapInode).disk
      = _ := hsync
  rw [hflush, Option.map_some] at hdestroy
  have hbits : ∀ i, bit mapInode i = true ↔ i = 0 := by
    intro i
    rw [hclaimed.bit_eq, bit_zeros, Bool.false_or, decide_eq_true_iff]
  refine ⟨_, _, hinit, ⟨⟨freshRoot, _, rfl, rfl, rfl, rfl, rfl, rfl⟩, hbits, ?_⟩, hdestroy, ?_⟩
  · exact fun i => bit_zeros _ _ i
  · obtain ⟨himage, hmapInode, hmapData⟩ := destroy_image hmounted hdestroy
    have honly : OnlyRoot (formattedFs disk junk mapInode).heap freshRoot := by
      intro ptr sub hsub _
      exact List.mem_singleton.mp (List.mem_of_getElem? hsub)
    have hrecord := diskInode_mountCycle hmounted rfl rfl rfl rfl honly hdestroy
    refine ⟨himage.magic, ?_, ?_, ?_⟩
    · rw [hrecord]
      exact ⟨rfl, rfl, toInt32_zero⟩
    · rw [hmapInode]
      exact hbits
    · rw [hmapData]
      exact fun i => bit_zeros _ _ i

/-- A device without magic number becomes a new file system just when both of its bitmap
regions are zero. -/
theorem init_formats_iff (junk junk' : Junk) : Formats disk junk junk' ↔ BlankMaps disk.bytes :=
  ⟨Formats.blankMaps hdisk hmagic,
    fun hblank => formats_of_blankMaps hdisk hmagic hblank junk junk'⟩

end Formatting

/-- A device full of other data, whose bitmap regions happen to be zero. -/
def foreignDisk : Disk :=
  ⟨fun addr => if 1024 ≤ addr ∧ addr < 3072 then 0 else 0xEE, 4194304, 512⟩

theorem init_formats_foreign :
    foreignDisk.bytes 0 = 0xEE ∧ Formats foreignDisk (fun _ => 0) (fun _ => 0) := by
  have hmagic : (diskSuper foreignDisk.bytes).magicNum ≠ magicNum := by decide +kernel
  refine ⟨rfl, (init_formats_iff ⟨rfl, by decide⟩ hmagic _ _).mpr ?_⟩
  intro addr hlo hhi
  exact if_pos ⟨hlo, hhi⟩

/-- A device that is blank but for the first bit of the inode bitmap. -/
def strayBit : Disk := ⟨fun addr => if addr = 1024 then 1 else 0, 4194304, 512⟩

/-- There the root gets number 1. -/
theorem init_not_formats :
    ∃ disk, Geometry disk ∧ (diskSuper disk.bytes).magicNum ≠ magicNum ∧
      ∀ junk junk', ¬ Formats disk junk junk' := by
  have hdisk : Geometry strayBit := ⟨rfl, by decide⟩
  have hmagic : (diskSuper strayBit.bytes).magicNum ≠ magicNum := by decide +kernel
  refine ⟨strayBit, hdisk, hmagic, ?_⟩
  intro junk junk' h
  have hzero := h.blankMaps hdisk hmagic 1024 (le_refl _) (by decide)
  cases hzero

end OperateSystem.Newfs

import OperateSystem.Newfs.Alloc
import OperateSystem.Newfs.Run

/-!
# Mounting and unmounting without any operation

Mounting links the entries of the root directory again, through the routine
that also creates entries.  A mount directly followed by an unmount therefore
leaves the disk as it was exactly when the root directory is empty.
-/

namespace OperateSystem.Newfs

open OperateSystem.Bitmap
open OperateSystem.ByteStore

/-- `newfs_init` immediately followed by `newfs_destroy`. -/
def mountCycle (disk : Disk) (junk junk' : Junk) : Option Disk :=
  (init disk junk).bind fun fs => destroy fs junk'

/-- `k` such cycles; `junks` gives the uninitialised memory of each. -/
def mountCycles (junks : ℕ → Junk × Junk) : ℕ → Disk → Option Disk
  | 0, disk => some disk
  | k + 1, disk => (mountCycle disk (junks k).1 (junks k).2).bind (mountCycles junks k)

/-- The entries of the directory `ino` on disk. -/
def diskDir (bytes : ℕ → Byte) (ino : ℕ) : Set DentryD :=
  { entry | ∃ i : ℕ, i < (diskInode bytes ino).dirCnt ∧ entry = diskEntry bytes ino i }

/-- Both bitmaps, the size and count of every allocated inode, and the entries
of every directory are the same. -/
structure SameImage (bytes bytes' : ℕ → Byte) : Prop where
  mapInode : diskMapInode bytes' = diskMapInode bytes
  mapData : diskMapData bytes' = diskMapData bytes
  size : ∀ ino, bit (diskMapInode bytes) ino = true →
    (diskInode bytes' ino).size = (diskInode bytes ino).size
  dirCnt : ∀ ino, bit (diskMapInode bytes) ino = true →
    (diskInode bytes' ino).dirCnt = (diskInode bytes ino).dirCnt
  entries : ∀ ino, bit (diskMapInode bytes) ino = true →
    (diskInode bytes ino).ftype = .dir → diskDir bytes' ino = diskDir bytes ino

/-- What a cycle does when no entry of the root is counted: the root's record is
written back with a zero count, everything else stays. -/
structure RootEmptied (bytes bytes' : ℕ → Byte) : Prop where
  mapInode : diskMapInode bytes' = diskMapInode bytes
  mapData : diskMapData bytes' = diskMapData bytes
  size : (diskInode bytes' 0).size = (diskInode bytes 0).size
  dirCnt : (diskInode bytes' 0).dirCnt = 0
  rest : ∀ addr, 3104 ≤ addr → bytes' addr = bytes addr

theorem RootEmptied.diskInode_eq {bytes bytes' : ℕ → Byte} (h : RootEmptied bytes bytes')
    {ino : ℕ} (hino : ino ≠ 0) : diskInode bytes' ino = diskInode bytes ino := by
  apply congrArg InodeD.decode
  apply slice_congr
  intro addr haddr _
  exact h.rest addr (by omega)

/-- An emptied root that was empty before is no change. -/
theorem RootEmptied.same {bytes bytes' : ℕ → Byte} (h : RootEmptied bytes bytes')
    (hempty : (diskInode bytes 0).dirCnt = 0) : SameImage bytes bytes' := by
  have hcount : ∀ ino, (diskInode bytes' ino).dirCnt = (diskInode bytes ino).dirCnt := by
    intro ino
    by_cases hino : ino = 0
    · rw [hino, h.dirCnt, hempty]
    · rw [h.diskInode_eq hino]
  refine ⟨h.mapInode, h.mapData, ?_, fun ino _ => hcount ino, ?_⟩
  · intro ino _
    by_cases hino : ino = 0
    · rw [hino, h.size]
    · rw [h.diskInode_eq hino]
  · intro ino _ _
    have hentry : ∀ i, diskEntry bytes' ino i = diskEntry bytes ino i := by
      intro i
      apply congrArg DentryD.decode
      apply slice_congr
      intro addr haddr _
      exact h.rest addr (by omega)
    simp only [diskDir, hcount, hentry]

theorem RootEmptied.trans {bytes bytes' bytes'' : ℕ → Byte} (h : RootEmptied bytes bytes')
    (h' : RootEmptied bytes' bytes'') : RootEmptied bytes bytes'' :=
  ⟨h'.mapInode.trans h.mapInode, h'.mapData.trans h.mapData, h'.size.trans h.size, h'.dirCnt,
    fun addr haddr => (h'.rest addr haddr).trans (h.rest addr haddr)⟩

theorem rootInode_size_range (bytes : ℕ → Byte) :
    -2 ^ 31 ≤ (rootInode bytes).size ∧ (rootInode bytes).size < 2 ^ 31 := by
  simp only [rootInode, diskInode, InodeD.decode]
  exact decodeInt_range _

section Cycle

variable {disk disk' : Disk} {junk junk' : Junk}

theorem mountCycle_some (h : mountCycle disk junk junk' = some disk') :
    ∃ fs, init disk junk = some fs ∧ destroy fs junk' = some disk' :=
  Option.bind_eq_some_iff.mp h

/-- A cycle leaves an image whose data bitmap has only gained bits. -/
theorem mountCycle_image (himage : Image disk) (h : mountCycle disk junk junk' = some disk') :
    Image disk' ∧ MapGrows (diskMapData disk.bytes) (diskMapData disk'.bytes) := by
  obtain ⟨fs, hinit, hdestroy⟩ := mountCycle_some h
  obtain ⟨hmounted, -, hsuper⟩ := init_image_mounted himage hinit
  obtain ⟨himage', -, hmapData⟩ := destroy_image hmounted hdestroy
  refine ⟨himage', ?_⟩
  rw [hmapData]
  exact hsuper.mapData

/-- No inode but the root's is loaded. -/
def OnlyRoot (heap : List Dentry) (root : Dentry) : Prop :=
  ∀ (ptr : DentryPtr) (sub : Dentry), heap[ptr]? = some sub → sub.inode.isSome → sub = root

theorem reached_root {heap : List Dentry} {start dentry root : Dentry}
    (honly : OnlyRoot heap root)
    (hstart : start = root) (hreached : Reached heap start dentry) : dentry = root := by
  induction hreached with
  | refl dentry => exact hstart
  | child _ _ _ hsub hloaded _ ih => exact ih (honly _ _ hsub hloaded)

/-- Flushing a tree of which only the root is loaded leaves the root's record on
disk. -/
theorem syncInode_root {heap : List Dentry} {root : Dentry} {inode : Inode} {fuel : ℕ}
    (honly : OnlyRoot heap root)
    (hdir : root.ftype = .dir) (hinode : root.inode = some inode) (hino : inode.ino = 0)
    (h : syncInode heap junk fuel root disk = some disk') :
    slice disk'.bytes 3072 32 = InodeD.encode ⟨0, inode.size, .dir, inode.dirCnt⟩ junk 3072 := by
  have hself : Flushes heap junk disk.szIo root (inoOfs inode.ino).toNat
      (InodeD.encode ⟨inode.ino, inode.size, root.ftype, inode.dirCnt⟩ junk
        (inoOfs inode.ino).toNat) := by
    apply Flushes.inode hinode
    rw [hino]
    decide
  have hofs : (inoOfs inode.ino).toNat = 3072 := by
    rw [hino]
    rfl
  rw [hofs, hino, hdir] at hself
  have hsettled := syncInode_settles_self ?_ hself rfl h
  · have hon := hsettled.on
    rwa [InodeD.length_encode] at hon
  · intro dentry ofs content hreached hflush
    have hroot := reached_root honly rfl hreached
    subst hroot
    cases hflush with
    | @inode inode' hinode' _ =>
        have hsame : inode' = inode := Option.some.inj (hinode'.symm.trans hinode)
        rw [hsame, hofs, hino, hdir]
        exact Agree.refl _ _
    | @entry inode' i ptr sub ofs' hinode' _ _ _ heq _ =>
        have hsame : inode' = inode := Option.some.inj (hinode'.symm.trans hinode)
        rw [hsame, hino] at heq
        apply agree_of_disjoint
        simp only [daOfs, dataOfs, dataPerFile, dataSize, sizeofDentryD] at heq
        simp only [InodeD.length_encode]
        omega
    | data _ hfile _ =>
        rw [hdir] at hfile
        cases hfile

/-- The root's record on disk after a mount without operations and an unmount. -/
theorem diskInode_mountCycle {fs : Fs} {root : Dentry} {inode : Inode} (hmounted : Mounted fs)
    (hroot : fs.heap[0]? = some root) (hdir : root.ftype = .dir)
    (hinode : root.inode = some inode) (hino : inode.ino = 0)
    (honly : OnlyRoot fs.heap root)
    (h : destroy fs junk = some disk') :
    diskInode disk'.bytes 0 = ⟨0, toInt32 inode.size, .dir, toInt32 inode.dirCnt⟩ := by
  rw [destroy_eq hmounted hroot] at h
  obtain ⟨flushed, hsync, rfl⟩ := Option.map_eq_some_iff.mp h
  have hslice : slice (unmountBytes fs.super junk flushed.bytes) 3072 32
      = slice flushed.bytes 3072 32 := by
    apply slice_congr
    intro addr haddr _
    exact unmountBytes_of_ge _ _ _ hmounted.mapInodeLength hmounted.mapDataLength haddr
  have htype : FileType.ofInt (toInt32 FileType.dir.toInt) = .dir := by
    rw [toInt32_of_range (by decide) (by decide)]
    rfl
  rw [diskInode_zero, hslice, syncInode_root honly hdir hinode hino hsync, InodeD.decode_encode,
    toInt32_zero, htype]

/-- Mounting without operations loads the root alone. -/
theorem onlyRoot_setInode {fs : Fs} {more : List Dentry} {inode : Inode}
    (hheap : fs.heap = rootDentry :: more) (hnull : ∀ sub ∈ more, sub.inode = none) :
    OnlyRoot (fs.setInode 0 rootDentry inode).heap { rootDentry with inode := some inode } := by
  intro ptr sub hsub hloaded
  simp only [Fs.setInode, hheap, List.set_cons_zero] at hsub
  rcases List.mem_cons.mp (List.mem_of_getElem? hsub) with rfl | hmem
  · rfl
  · rw [hnull sub hmem] at hloaded
    cases hloaded

/-- The count on disk after a cycle is the count of the root as it was read. -/
theorem mountCycle_count (himage : Image disk) (h : mountCycle disk junk junk' = some disk') :
    ∃ fs₁ inode, readDentrys 0 (diskInode disk.bytes 0).dirCnt.toNat 0
        ⟨disk, imageSuper disk.bytes, [rootDentry]⟩ (rootInode disk.bytes) = some (fs₁, inode) ∧
      diskInode disk'.bytes 0 = ⟨0, toInt32 inode.size, .dir, toInt32 inode.dirCnt⟩ ∧
      diskMapInode disk'.bytes = fs₁.super.mapInode ∧
      diskMapData disk'.bytes = fs₁.super.mapData := by
  obtain ⟨fs, hinit, hdestroy⟩ := mountCycle_some h
  obtain ⟨hmounted, -, -⟩ := init_image_mounted himage hinit
  obtain ⟨-, hmapInode, hmapData⟩ := destroy_image hmounted hdestroy
  obtain ⟨fs₁, inode, more, hread, hheap, hnull, rfl⟩ := init_image_some himage hinit
  obtain ⟨-, -, -, hino⟩ := readDentrys_grows hread
  have hroot : (fs₁.setInode 0 rootDentry inode).heap[0]?
      = some { rootDentry with inode := some inode } := by
    simp [Fs.setInode, hheap]
  exact ⟨fs₁, inode, hread, diskInode_mountCycle hmounted hroot rfl rfl hino
    (onlyRoot_setInode hheap hnull) hdestroy, hmapInode, hmapData⟩

/-- Reading the root directory when every data bit is taken counts nothing. -/
theorem mountCycle_of_full (himage : Image disk)
    (hfull : claimBit (diskMapData disk.bytes) 0 = none)
    (h : mountCycle disk junk junk' = some disk') : (diskInode disk'.bytes 0).dirCnt = 0 := by
  obtain ⟨fs₁, inode, hread, hrecord, -, -⟩ := mountCycle_count himage h
  have hrange := rootInode_size_range disk.bytes
  obtain ⟨-, hcount, -⟩ :=
    readDentrys_full himage.geometry.blks hrange.1 hrange.2 hfull hread
  rw [hrecord, hcount]
  exact toInt32_zero

/-- Reading a nonempty root directory claims a data bit for good. -/
theorem mountCycle_claims (himage : Image disk) (hcount : 0 < (diskInode disk.bytes 0).dirCnt)
    {c : ℕ} {mapData : List Byte}
    (hclaim : claimBit (diskMapData disk.bytes) 0 = some (c, mapData))
    (h : mountCycle disk junk junk' = some disk') :
    bit (diskMapData disk'.bytes) c = true := by
  obtain ⟨fs₁, inode, hread, -, -, hmapData⟩ := mountCycle_count himage h
  have hsucc : (diskInode disk.bytes 0).dirCnt.toNat
      = ((diskInode disk.bytes 0).dirCnt.toNat - 1) + 1 := by omega
  rw [hsucc] at hread
  rw [hmapData]
  have hrange := rootInode_size_range disk.bytes
  exact readDentrys_claims himage.geometry.blks hrange.1 hrange.2 hclaim hread

/-- The root's record as it is written back when no entry was counted. -/
def emptiedRecord (bytes : ℕ → Byte) (junk : Junk) : List Byte :=
  InodeD.encode ⟨0, (rootInode bytes).size, .dir, 0⟩ junk 3072

/-- A cycle on a disk whose root counts no entries succeeds and only rewrites the
root's record. -/
theorem mountCycle_of_nonpos (himage : Image disk) (hcount : (diskInode disk.bytes 0).dirCnt ≤ 0)
    (junk junk' : Junk) :
    ∃ disk', mountCycle disk junk junk' = some disk' ∧ RootEmptied disk.bytes disk'.bytes := by
  have hnat : (diskInode disk.bytes 0).dirCnt.toNat = 0 := Int.toNat_of_nonpos hcount
  let root : Dentry := { rootDentry with inode := some (rootInode disk.bytes) }
  let fs : Fs := ⟨disk, imageSuper disk.bytes, [root]⟩
  have hinit : init disk junk = some fs := by
    rw [init_image himage, hnat]
    rfl
  obtain ⟨hmounted, -, -⟩ := init_image_mounted himage hinit
  let record := emptiedRecord disk.bytes junk'
  have hwrite : driverWrite disk (inoOfs 0) record sizeofInodeD
      = some { disk with bytes := overwrite disk.bytes 3072 record } :=
    himage.geometry.write (show inoOfs 0 = ((3072 : ℕ) : Int) by rfl)
      (by simp [record, emptiedRecord, sizeofInodeD]) (by simp [record, emptiedRecord])
  have hsync : syncInode fs.heap junk' fs.heap.length root fs.disk
      = some { disk with bytes := overwrite disk.bytes 3072 record } := by
    change syncInode [root] junk' 1 root disk = _
    rw [syncInode]
    exact Option.bind_eq_some_iff.mpr ⟨_, rfl, Option.bind_eq_some_iff.mpr ⟨_, hwrite, rfl⟩⟩
  have hcycle : mountCycle disk junk junk'
      = some { disk with
          bytes := unmountBytes fs.super junk' (overwrite disk.bytes 3072 record) } := by
    rw [mountCycle, hinit, Option.bind_some,
      destroy_eq hmounted (show fs.heap[0]? = some root from rfl), hsync, Option.map_some]
  refine ⟨_, hcycle, ?_⟩
  obtain ⟨fs₁, inode, hread, hrecord, hmapInode, hmapData⟩ := mountCycle_count himage hcycle
  rw [hnat] at hread
  cases hread
  have hrange := rootInode_size_range disk.bytes
  have hsize := toInt32_of_range hrange.1 hrange.2
  refine ⟨hmapInode, hmapData, ?_, ?_, ?_⟩
  · rw [hrecord]
    simpa only [rootInode] using hsize
  · rw [hrecord]
    exact toInt32_zero
  · intro addr haddr
    have hrest := unmountBytes_of_ge fs.super junk' (overwrite disk.bytes 3072 record)
      hmounted.mapInodeLength hmounted.mapDataLength (show 3072 ≤ addr by omega)
    rw [overwrite_of_ge _ _ _ (by simp [record, emptiedRecord]; omega)] at hrest
    exact hrest

end Cycle

section Cycles

variable {junks : ℕ → Junk × Junk} {disk disk' : Disk}

theorem mountCycles_succ {k : ℕ} (h : mountCycles junks (k + 1) disk = some disk') :
    ∃ disk₁, mountCycle disk (junks k).1 (junks k).2 = some disk₁ ∧
      mountCycles junks k disk₁ = some disk' :=
  Option.bind_eq_some_iff.mp h

/-- Any number of cycles leaves an image whose data bitmap has only gained bits. -/
theorem mountCycles_image {k : ℕ} (himage : Image disk)
    (h : mountCycles junks k disk = some disk') :
    Image disk' ∧ MapGrows (diskMapData disk.bytes) (diskMapData disk'.bytes) := by
  induction k generalizing disk with
  | zero =>
      cases h
      exact ⟨himage, MapGrows.refl _⟩
  | succ k ih =>
      obtain ⟨disk₁, hcycle, hrest⟩ := mountCycles_succ h
      obtain ⟨himage₁, hgrows₁⟩ := mountCycle_image himage hcycle
      obtain ⟨himage', hgrows'⟩ := ih himage₁ hrest
      exact ⟨himage', hgrows₁.trans hgrows'⟩

/-- Cycles on a disk with an empty root succeed, and the root stays empty. -/
theorem mountCycles_of_empty (junks : ℕ → Junk × Junk) (k : ℕ) (himage : Image disk)
    (hempty : (diskInode disk.bytes 0).dirCnt = 0) :
    ∃ disk', mountCycles junks k disk = some disk' ∧
      (disk' = disk ∨ RootEmptied disk.bytes disk'.bytes) := by
  induction k generalizing disk with
  | zero => exact ⟨disk, rfl, Or.inl rfl⟩
  | succ k ih =>
      obtain ⟨disk₁, hcycle, hemptied⟩ :=
        mountCycle_of_nonpos himage (le_of_eq hempty) (junks k).1 (junks k).2
      obtain ⟨disk', hrest, hsame⟩ := ih (mountCycle_image himage hcycle).1 hemptied.dirCnt
      refine ⟨disk', ?_, Or.inr ?_⟩
      · rw [mountCycles, hcycle, Option.bind_some, hrest]
      · cases hsame with
        | inl heq => exact heq ▸ hemptied
        | inr hemptied' => exact hemptied.trans hemptied'

theorem SameImage.refl (bytes : ℕ → Byte) : SameImage bytes bytes :=
  ⟨rfl, rfl, fun _ _ => rfl, fun _ _ => rfl, fun _ _ _ => rfl⟩

/-- A first cycle that leaves the root empty leaves it so for good, and a first
cycle that does not claims a bit for good. -/
theorem not_sameImage_of_count {k : ℕ} (himage : Image disk)
    (hcount : (diskInode disk.bytes 0).dirCnt ≠ 0)
    (h : mountCycles junks (k + 1) disk = some disk') :
    ¬ SameImage disk.bytes disk'.bytes := by
  intro hsame
  obtain ⟨disk₁, hcycle, hrest⟩ := mountCycles_succ h
  obtain ⟨himage₁, -⟩ := mountCycle_image himage hcycle
  have hemptied : (diskInode disk₁.bytes 0).dirCnt ≠ 0 := by
    intro hempty
    obtain ⟨disk₂, hrest', hsame'⟩ := mountCycles_of_empty junks k himage₁ hempty
    rw [hrest] at hrest'
    cases hrest'
    have hzero : (diskInode disk'.bytes 0).dirCnt = 0 := by
      cases hsame' with
      | inl heq => rw [heq, hempty]
      | inr hemptied => exact hemptied.dirCnt
    rw [hsame.dirCnt 0 himage.rootBit] at hzero
    exact hcount hzero
  rcases lt_or_gt_of_ne hcount with hneg | hpos
  · obtain ⟨disk₂, hcycle', hroot⟩ :=
      mountCycle_of_nonpos himage (le_of_lt hneg) (junks k).1 (junks k).2
    rw [hcycle] at hcycle'
    cases hcycle'
    exact hemptied hroot.dirCnt
  · cases hclaim : claimBit (diskMapData disk.bytes) 0 with
    | none => exact hemptied (mountCycle_of_full himage hclaim hcycle)
    | some claim =>
        obtain ⟨c, mapData⟩ := claim
        have hset := mountCycle_claims himage hpos hclaim hcycle
        have hset' := (mountCycles_image himage₁ hrest).2.bits c hset
        rw [hsame.mapData, (claimBit_some (by decide) hclaim).clear] at hset'
        cases hset'

end Cycles

/-- The disks left by unmounting after any run. -/
def LeftBy (szIo : ℕ) (disk : Disk) : Prop :=
  ∃ fs junk, Run szIo fs ∧ destroy fs junk = some disk

/-- Mounting and unmounting any number of times leaves a disk as it was exactly
when its root directory counts no entries. -/
theorem mountCycles_neutral_iff {szIo : ℕ} (hszIo : szIo ∣ 1024) {disk : Disk}
    (hdisk : LeftBy szIo disk) (junks : ℕ → Junk × Junk) {k : ℕ} (hk : 1 ≤ k) :
    (∃ disk', mountCycles junks k disk = some disk' ∧ SameImage disk.bytes disk'.bytes) ↔
      (diskInode disk.bytes 0).dirCnt = 0 := by
  obtain ⟨fs, junk, hrun, hdestroy⟩ := hdisk
  obtain ⟨himage, -, -⟩ := destroy_image (hrun.mounted hszIo) hdestroy
  constructor
  · intro hneutral
    obtain ⟨disk', hcycles, hsame⟩ := hneutral
    by_contra hcount
    obtain ⟨k, rfl⟩ := Nat.exists_eq_add_of_le' hk
    exact not_sameImage_of_count himage hcount hcycles hsame
  · intro hempty
    obtain ⟨disk', hcycles, hsame⟩ := mountCycles_of_empty junks k himage hempty
    refine ⟨disk', hcycles, ?_⟩
    cases hsame with
    | inl heq => exact heq ▸ SameImage.refl disk.bytes
    | inr hemptied => exact hemptied.same hempty

/-- The disk left by formatting a blank device and unmounting. -/
def blankImage : Option Disk :=
  (init (blankDisk 512) fun _ => 0).bind fun fs => destroy fs fun _ => 0

/-- The disk left by formatting a blank device, `mkdir /a` and unmounting. -/
def oneDirImage : Option Disk :=
  (init (blankDisk 512) fun _ => 0).bind fun fs =>
    (mkdir fs [slash, 97] fun _ => 0).bind fun made => destroy made.1 fun _ => 0

theorem blankImage_dirCnt :
    (blankImage.map fun disk => (diskInode disk.bytes 0).dirCnt) = some 0 := by
  decide +kernel

theorem oneDirImage_dirCnt :
    (oneDirImage.map fun disk => (diskInode disk.bytes 0).dirCnt) = some 1 := by
  decide +kernel

theorem mountCycles_neutral_blank :
    ∃ disk disk', blankImage = some disk ∧ LeftBy 512 disk ∧
      mountCycles (fun _ => (fun _ => 0, fun _ => 0)) 3 disk = some disk' ∧
      SameImage disk.bytes disk'.bytes := by
  obtain ⟨disk, himage, hcount⟩ := Option.map_eq_some_iff.mp blankImage_dirCnt
  obtain ⟨fs, hinit, hdestroy⟩ := Option.bind_eq_some_iff.mp himage
  have hleft : LeftBy 512 disk :=
    ⟨fs, _, ⟨_, fs, hinit, Relation.ReflTransGen.refl⟩, hdestroy⟩
  obtain ⟨disk', hcycles, hsame⟩ :=
    (mountCycles_neutral_iff (by decide) hleft (fun _ => (fun _ => 0, fun _ => 0))
      (show 1 ≤ 3 by decide)).mpr hcount
  exact ⟨disk, disk', himage, hleft, hcycles, hsame⟩

/-- One directory in the root, one mount and unmount: the disk is not the same. -/
theorem mountCycle_not_neutral :
    ∃ disk, oneDirImage = some disk ∧ LeftBy 512 disk ∧
      ¬ ∃ disk', mountCycles (fun _ => (fun _ => 0, fun _ => 0)) 1 disk = some disk' ∧
        SameImage disk.bytes disk'.bytes := by
  obtain ⟨disk, himage, hcount⟩ := Option.map_eq_some_iff.mp oneDirImage_dirCnt
  obtain ⟨fs, hinit, hrest⟩ := Option.bind_eq_some_iff.mp himage
  obtain ⟨made, hmkdir, hdestroy⟩ := Option.bind_eq_some_iff.mp hrest
  have hstep : Step fs made.1 := by
    refine ⟨.mkdir [slash, 97] fun _ => 0, ?_⟩
    rw [Op.run, hmkdir]
    rfl
  have hrun : Run 512 made.1 := ⟨_, fs, hinit, Relation.ReflTransGen.single hstep⟩
  have hdisk : Image disk := (destroy_image (hrun.mounted (by decide)) hdestroy).1
  refine ⟨disk, himage, ⟨made.1, _, hrun, hdestroy⟩, ?_⟩
  intro hneutral
  obtain ⟨disk', hcycles, hsame⟩ := hneutral
  exact not_sameImage_of_count hdisk (by rw [hcount]; decide) hcycles hsame

end OperateSystem.Newfs

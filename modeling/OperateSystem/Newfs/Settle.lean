import OperateSystem.Newfs.Persist

/-!
# Flushing a tree whose inodes keep to their places

Every write of a flush lies in the slot or in the data region of its inode, and the regions
of different numbers are disjoint.  So the writes of a tree whose inodes have different
numbers do not disturb each other: afterwards each of them is on the device, and the
places of all other numbers are as they were.
-/

namespace OperateSystem.Newfs

open OperateSystem.ByteStore

/-- An entry whose record can be read back. -/
structure Legible (sub : Dentry) : Prop where
  fname : sub.fname.length = maxFileName
  ftype : ∀ raw, sub.ftype ≠ .other raw
  number : 0 ≤ sub.ino ∧ sub.ino < 3968

/-- What a flush writes for the inode lies in its slot and its data region. -/
structure Housed (heap : List Dentry) (ftype : FileType) (inode : Inode) (ino : ℕ) : Prop where
  ino_eq : inode.ino = ino
  lt : ino < 3968
  dir : ftype = .dir → inode.dentrys.length ≤ 58 ∧
    ∀ ptr ∈ inode.dentrys, ∃ sub, heap[ptr]? = some sub ∧ Legible sub
  file : ftype = .file → 0 ≤ inode.size ∧ inode.size ≤ 8192 ∧ inode.data.length = 8192

/-- The loaded inodes below `root` keep to their places, which are different ones. -/
structure HousedTree (heap : List Dentry) (root : Dentry) : Prop where
  loaded : root.inode.isSome
  housed : ∀ dentry inode, Reached heap root dentry → dentry.inode = some inode →
    ∃ ino, Housed heap dentry.ftype inode ino
  distinct : ∀ dentry inode dentry' inode', Reached heap root dentry → dentry.inode = some inode →
    Reached heap root dentry' → dentry'.inode = some inode' → inode.ino = inode'.ino →
    dentry = dentry'

/-- The device has what is in memory: the record of the inode with its entries or data. -/
structure OnDisk (heap : List Dentry) (bytes : ℕ → Byte) (ftype : FileType) (inode : Inode)
    (ino : ℕ) : Prop where
  record : diskInode bytes ino
    = ⟨ino, toInt32 inode.size, .ofInt (toInt32 ftype.toInt), toInt32 inode.dirCnt⟩
  entries : ftype = .dir → ∀ (i : ℕ) (ptr : DentryPtr) (sub : Dentry),
    inode.dentrys[i]? = some ptr → heap[ptr]? = some sub →
    diskEntry bytes ino i = ⟨sub.fname, sub.ftype, sub.ino⟩
  data : ftype = .file → slice bytes (130048 + 8192 * ino) inode.size.toNat
    = inode.data.take inode.size.toNat

theorem inoOfs_toNat (ino : ℕ) : (inoOfs ino).toNat = 3072 + 32 * ino := by
  rw [inoOfs, inodeOfs, inodeSize]
  omega

theorem daOfs_toNat (ino i : ℕ) :
    (daOfs ino + i * sizeofDentryD).toNat = 130048 + 8192 * ino + 140 * i := by
  rw [daOfs, dataOfs, dataPerFile, dataSize, sizeofDentryD]
  omega

theorem daOfs_start (ino : ℕ) : (daOfs ino).toNat = 130048 + 8192 * ino := by
  rw [daOfs, dataOfs, dataPerFile, dataSize]
  omega

theorem daOfs_nonneg (ino : ℕ) : 0 ≤ daOfs ino := by
  rw [daOfs, dataOfs, dataPerFile, dataSize]
  omega

theorem ofInt_toInt {ftype : FileType} (hplain : ∀ raw, ftype ≠ .other raw) :
    FileType.ofInt (toInt32 ftype.toInt) = ftype := by
  cases ftype with
  | dir => decide
  | file => decide
  | symLink => decide
  | other raw => exact absurd rfl (hplain raw)

section Regions

variable {heap : List Dentry} {junk : Junk} {szIo : ℕ} {dentry : Dentry} {inode : Inode} {ino : ℕ}

theorem Legible.length_encode {sub : Dentry} (h : Legible sub) (ofs : ℕ) :
    (DentryD.encode ⟨sub.fname, sub.ftype, sub.ino⟩ junk ofs).length = 140 :=
  DentryD.length_encode _ junk ofs h.fname

/-- The writes that a flush makes for the inode itself. -/
theorem Housed.cases_of (h : Housed heap dentry.ftype inode ino) (hblks : blksSz szIo = 1024)
    (hinode : dentry.inode = some inode) {ofs : ℕ} {content : List Byte}
    (hflush : Flushes heap junk szIo dentry ofs content) :
    (ofs = 3072 + 32 * ino ∧ content
      = InodeD.encode ⟨inode.ino, inode.size, dentry.ftype, inode.dirCnt⟩ junk ofs) ∨
    (dentry.ftype = .dir ∧ ∃ (i : ℕ) (ptr : DentryPtr) (sub : Dentry), i < 58 ∧
      inode.dentrys[i]? = some ptr ∧ heap[ptr]? = some sub ∧ Legible sub ∧
      ofs = 130048 + 8192 * ino + 140 * i ∧
      content = DentryD.encode ⟨sub.fname, sub.ftype, sub.ino⟩ junk ofs) ∨
    (dentry.ftype = .file ∧ ofs = 130048 + 8192 * ino ∧
      content = inode.data.take (roundUp inode.size 1024).toNat ∧ content.length ≤ 8192) := by
  cases hflush with
  | @inode inode' hinode' hofs =>
      rw [hinode] at hinode'
      cases hinode'
      left
      rw [h.ino_eq, inoOfs_toNat]
      exact ⟨rfl, rfl⟩
  | @entry inode' i ptr sub ofs hinode' hdir hptr hsub heq hofs =>
      rw [hinode] at hinode'
      cases hinode'
      right; left
      obtain ⟨hlength, hall⟩ := h.dir hdir
      obtain ⟨sub', hsub', hlegible⟩ := hall ptr (List.mem_of_getElem? hptr)
      rw [hsub] at hsub'
      cases hsub'
      have hi := (List.getElem?_eq_some_iff.mp hptr).1
      rw [heq, h.ino_eq, daOfs_toNat]
      refine ⟨hdir, i, ptr, sub, by omega, hptr, hsub, hlegible, rfl, ?_⟩
      exact List.take_of_length_le (le_of_eq (hlegible.length_encode _))
  | @data inode' hinode' hfile hofs =>
      rw [hinode] at hinode'
      cases hinode'
      right; right
      obtain ⟨-, -, hlength⟩ := h.file hfile
      rw [h.ino_eq, daOfs_start, hblks]
      refine ⟨hfile, rfl, rfl, ?_⟩
      rw [List.length_take]
      omega

/-- They lie in its slot or in its data region. -/
theorem Housed.region (h : Housed heap dentry.ftype inode ino) (hblks : blksSz szIo = 1024)
    (hinode : dentry.inode = some inode) {ofs : ℕ} {content : List Byte}
    (hflush : Flushes heap junk szIo dentry ofs content) :
    (ofs = 3072 + 32 * ino ∧ content.length = 32) ∨
      (130048 + 8192 * ino ≤ ofs ∧ ofs + content.length ≤ 130048 + 8192 * (ino + 1)) := by
  obtain ⟨rfl, rfl⟩ | ⟨-, i, ptr, sub, hi, -, -, hlegible, rfl, rfl⟩ | ⟨-, rfl, -, hlength⟩ :=
    h.cases_of hblks hinode hflush
  · exact Or.inl ⟨rfl, InodeD.length_encode _ _ _⟩
  · rw [hlegible.length_encode]
    exact Or.inr ⟨by omega, by omega⟩
  · exact Or.inr ⟨by omega, by omega⟩

/-- Two writes for one inode. -/
theorem Housed.agree (h : Housed heap dentry.ftype inode ino) (hblks : blksSz szIo = 1024)
    (hinode : dentry.inode = some inode) {ofs ofs' : ℕ} {content content' : List Byte}
    (hflush : Flushes heap junk szIo dentry ofs content)
    (hflush' : Flushes heap junk szIo dentry ofs' content') : Agree ofs content ofs' content' := by
  have hlt := h.lt
  have hregion := h.region hblks hinode hflush
  have hregion' := h.region hblks hinode hflush'
  obtain ⟨rfl, rfl⟩ | ⟨hdir, i, ptr, sub, hi, hptr, hsub, hlegible, rfl, rfl⟩ |
    ⟨hfile, rfl, rfl, -⟩ := h.cases_of hblks hinode hflush
  · obtain ⟨rfl, rfl⟩ | ⟨-, j, -, -, -, -, -, -, rfl, -⟩ | ⟨-, rfl, -, -⟩ :=
      h.cases_of hblks hinode hflush'
    · exact Agree.refl _ _
    · exact agree_of_disjoint (by omega)
    · exact agree_of_disjoint (by omega)
  · obtain ⟨rfl, rfl⟩ | ⟨-, j, ptr', sub', hj, hptr', hsub', hlegible', rfl, rfl⟩ | ⟨hfile, -⟩ :=
      h.cases_of hblks hinode hflush'
    · exact agree_of_disjoint (by omega)
    · by_cases heq : i = j
      · subst heq
        rw [hptr] at hptr'
        cases hptr'
        rw [hsub] at hsub'
        cases hsub'
        exact Agree.refl _ _
      · apply agree_of_disjoint
        rw [hlegible.length_encode, hlegible'.length_encode]
        omega
    · rw [hdir] at hfile
      cases hfile
  · obtain ⟨rfl, rfl⟩ | ⟨hdir, -⟩ | ⟨-, rfl, rfl, -⟩ := h.cases_of hblks hinode hflush'
    · exact agree_of_disjoint (by omega)
    · rw [hfile] at hdir
      cases hdir
    · exact Agree.refl _ _

end Regions

section Trees

variable {heap : List Dentry} {junk : Junk} {szIo : ℕ} {root : Dentry}

theorem Reached.loaded {dentry : Dentry} (h : Reached heap root dentry)
    (hroot : root.inode.isSome) : dentry.inode.isSome := by
  induction h with
  | refl => exact hroot
  | child _ _ _ _ hloaded _ ih => exact ih hloaded

variable (h : HousedTree heap root) (hblks : blksSz szIo = 1024)

include h hblks

/-- The writes of the tree do not disturb each other. -/
theorem HousedTree.agree {dentry dentry' : Dentry} (hreached : Reached heap root dentry)
    (hreached' : Reached heap root dentry') {ofs ofs' : ℕ} {content content' : List Byte}
    (hflush : Flushes heap junk szIo dentry ofs content)
    (hflush' : Flushes heap junk szIo dentry' ofs' content') : Agree ofs content ofs' content' := by
  obtain ⟨inode, hinode⟩ := Option.isSome_iff_exists.mp (hreached.loaded h.loaded)
  obtain ⟨inode', hinode'⟩ := Option.isSome_iff_exists.mp (hreached'.loaded h.loaded)
  obtain ⟨ino, hhoused⟩ := h.housed dentry inode hreached hinode
  obtain ⟨ino', hhoused'⟩ := h.housed dentry' inode' hreached' hinode'
  by_cases heq : inode.ino = inode'.ino
  · have hsame := h.distinct dentry inode dentry' inode' hreached hinode hreached' hinode' heq
    subst hsame
    exact hhoused.agree hblks hinode hflush hflush'
  · rw [hhoused.ino_eq, hhoused'.ino_eq] at heq
    have hlt := hhoused.lt
    have hlt' := hhoused'.lt
    have hregion := hhoused.region hblks hinode hflush
    have hregion' := hhoused'.region hblks hinode' hflush'
    apply agree_of_disjoint
    omega

variable {fuel : ℕ} {disk disk' : Disk} (hszIo : disk.szIo = szIo)
  (hsync : syncInode heap junk fuel root disk = some disk')

include hszIo hsync

/-- A flush leaves the numbers alone that are not loaded. -/
theorem HousedTree.untouched {other : ℕ} (hother : other < 3968)
    (hnot : ∀ dentry inode, Reached heap root dentry → dentry.inode = some inode →
      inode.ino ≠ other) :
    slice disk'.bytes (3072 + 32 * other) 32 = slice disk.bytes (3072 + 32 * other) 32 ∧
      slice disk'.bytes (130048 + 8192 * other) 8192
        = slice disk.bytes (130048 + 8192 * other) 8192 := by
  have hkept := syncInode_preserves (fun d => d.szIo = szIo ∧
    slice d.bytes (3072 + 32 * other) 32 = slice disk.bytes (3072 + 32 * other) 32 ∧
    slice d.bytes (130048 + 8192 * other) 8192 = slice disk.bytes (130048 + 8192 * other) 8192)
    (fun dentry ofs content d hreached hflush hd => ?_) ⟨hszIo, rfl, rfl⟩ hsync
  · exact hkept.2
  · obtain ⟨hio, hslot, hdata⟩ := hd
    rw [hio] at hflush
    obtain ⟨inode, hinode⟩ := Option.isSome_iff_exists.mp (hreached.loaded h.loaded)
    obtain ⟨ino, hhoused⟩ := h.housed dentry inode hreached hinode
    have hlt := hhoused.lt
    have hne := hnot dentry inode hreached hinode
    rw [hhoused.ino_eq] at hne
    have hregion := hhoused.region hblks hinode hflush
    refine ⟨hio, ?_, ?_⟩
    · rw [slice_overwrite_of_disjoint _ _ _ (by omega), hslot]
    · rw [slice_overwrite_of_disjoint _ _ _ (by omega), hdata]

/-- Every write of the flush is on the device afterwards. -/
theorem HousedTree.settled {dentry : Dentry} (hreached : Reached heap root dentry) {ofs : ℕ}
    {content : List Byte} (hflush : Flushes heap junk szIo dentry ofs content) :
    slice disk'.bytes ofs content.length = content := by
  have hagree : ∀ dentry' ofs' content', Reached heap root dentry' →
      Flushes heap junk szIo dentry' ofs' content' → Agree ofs content ofs' content' :=
    fun _ _ _ hreached' hflush' => h.agree hblks hreached hreached' hflush hflush'
  exact (syncInode_settles hreached hflush hagree hszIo hsync).on

theorem HousedTree.onDisk {dentry : Dentry} {inode : Inode} (hreached : Reached heap root dentry)
    (hinode : dentry.inode = some inode) {ino : ℕ} (hhoused : Housed heap dentry.ftype inode ino) :
    OnDisk heap disk'.bytes dentry.ftype inode ino := by
  have hino := hhoused.ino_eq
  have hlt := hhoused.lt
  have hnat : toInt32 inode.ino = ino := by
    rw [hino]
    exact toInt32_natCast hlt
  refine ⟨?_, ?_, ?_⟩
  · have hon := h.settled hblks hszIo hsync hreached
      (Flushes.inode hinode (by rw [inoOfs, inodeOfs, inodeSize]; omega))
    rw [hino, InodeD.length_encode, inoOfs_toNat] at hon
    rw [diskInode, hon, InodeD.decode_encode, ← hino, hnat, hino]
  · intro hdir i ptr sub hptr hsub
    obtain ⟨sub', hsub', hlegible⟩ := (hhoused.dir hdir).2 ptr (List.mem_of_getElem? hptr)
    rw [hsub] at hsub'
    cases hsub'
    have hon := h.settled hblks hszIo hsync hreached
      (Flushes.entry hinode hdir hptr hsub rfl (hino ▸ daOfs_nonneg ino))
    rw [hino, daOfs_toNat, List.take_of_length_le (le_of_eq (hlegible.length_encode _)),
      hlegible.length_encode] at hon
    obtain ⟨hsubLo, hsubHi⟩ := hlegible.number
    rw [diskEntry, hon, DentryD.decode_encode _ _ _ hlegible.fname]
    simp only
    rw [ofInt_toInt hlegible.ftype, toInt32_of_range (by omega) (by omega)]
  · intro hfile
    obtain ⟨hsizeLo, hsizeHi, hlength⟩ := hhoused.file hfile
    have hup := roundUp_spec hsizeLo (show (0 : Int) < 1024 by decide)
    have hon := h.settled hblks hszIo hsync hreached
      (Flushes.data hinode hfile (hino ▸ daOfs_nonneg ino))
    rw [hino, daOfs_start, hblks] at hon
    have htake := congrArg (List.take inode.size.toNat) hon
    rw [take_slice _ _ _ _ (by rw [List.length_take]; omega), List.take_take,
      Nat.min_eq_left (by omega)] at htake
    exact htake

end Trees

section Returns

variable {heap : List Dentry} {junk : Junk}

theorem Geometry.sync {fuel : ℕ} {dentry : Dentry} {disk disk' : Disk} (hdisk : Geometry disk)
    (h : syncInode heap junk fuel dentry disk = some disk') : Geometry disk' := by
  obtain ⟨hsize, hszIo⟩ := syncInode_geometry h
  exact ⟨hsize.trans hdisk.size_eq, hszIo ▸ hdisk.szIo_dvd⟩

/-- A write of no bytes at a block boundary does nothing, also behind the device. -/
theorem Geometry.write_nothing {disk : Disk} (hdisk : Geometry disk) {offset : Int}
    (hoffset : 0 ≤ offset) (hdvd : 1024 ∣ offset) (content : List Byte) :
    driverWrite disk offset content 0 = some disk := by
  have hszIo : (disk.szIo : Int) ∣ offset := by
    have hunit := Int.natCast_dvd_natCast.mpr hdisk.szIo_dvd
    exact hunit.trans hdvd
  have hup := roundUp_of_dvd (dvd_zero (1024 : Int))
  have hseek : ddriverSeek disk offset = some offset.toNat :=
    if_pos ⟨hoffset, Int.emod_eq_zero_of_dvd hszIo⟩
  simp [driverWrite, driverRead, hdisk.blks, roundDown_of_dvd hdvd, hup, hseek, driverReadLoop,
    driverWriteLoop]

/-- The loop over the entries of a directory whose records have room returns when the
recursive calls do. -/
theorem syncDentrys_exists {sync : Dentry → Disk → Option Disk} {ino : ℕ}
    {ptrs : List DentryPtr} {j : ℕ} (hfits : Fits ino (140 * ((j + ptrs.length : ℕ) : Int)))
    (hptrs : ∀ ptr ∈ ptrs, ∃ sub, heap[ptr]? = some sub ∧ Legible sub ∧ (sub.inode.isSome →
      ∀ disk, Geometry disk → ∃ disk', sync sub disk = some disk' ∧ Geometry disk'))
    {disk : Disk} (hdisk : Geometry disk) :
    ∃ disk', syncDentrys heap junk sync ptrs (daOfs ino + j * sizeofDentryD) disk = some disk' := by
  induction ptrs generalizing j disk with
  | nil => exact ⟨disk, rfl⟩
  | cons ptr ptrs ih =>
      rw [List.length_cons] at hfits
      obtain ⟨sub, hsub, hlegible, hrec⟩ := hptrs ptr List.mem_cons_self
      have hdevice := hfits.device (by omega)
      have hofs : daOfs ino + j * sizeofDentryD
          = ((130048 + 8192 * ino + 140 * j : ℕ) : Int) := by
        rw [daOfs, dataOfs, dataPerFile, dataSize, sizeofDentryD]
        push_cast
        ring
      have hlength := @Legible.length_encode junk sub hlegible
        (daOfs ino + j * sizeofDentryD).toNat
      have hwrite := hdisk.write hofs (show sizeofDentryD = _ by rw [hlength]; rfl)
        (show _ ≤ 4194304 by rw [hlength]; omega)
      have hshift : daOfs ino + j * sizeofDentryD + sizeofDentryD
          = daOfs ino + ((j + 1 : ℕ) : Int) * sizeofDentryD := by
        push_cast
        ring
      simp only [syncDentrys, hsub, writeDentry, Option.bind_eq_bind, Option.bind_some]
      rw [hwrite, Option.bind_some, hshift]
      have hrest : ∀ d, Geometry d → ∃ disk',
          syncDentrys heap junk sync ptrs (daOfs ino + ((j + 1 : ℕ) : Int) * sizeofDentryD) d
            = some disk' :=
        fun d hd => ih (hfits.mono (by omega) (by omega))
          (fun p hp => hptrs p (List.mem_cons_of_mem _ hp)) hd
      split
      · rename_i hloaded
        obtain ⟨disk₂, hsync, hdisk₂⟩ := hrec hloaded _ (hdisk.bytes _)
        rw [hsync, Option.bind_some]
        exact hrest disk₂ hdisk₂
      · rw [Option.bind_some]
        exact hrest _ (hdisk.bytes _)

/-- The flush of an inode that keeps to its place returns when the recursive calls do. -/
theorem Housed.exists_sync {dentry : Dentry} {inode : Inode} {ino fuel : ℕ}
    (h : Housed heap dentry.ftype inode ino) (hinode : dentry.inode = some inode)
    (hdirFits : dentry.ftype = .dir → Fits ino (140 * (inode.dentrys.length : Int)))
    (hfileFits : dentry.ftype = .file → Fits ino (roundUp inode.size 1024))
    (hrec : dentry.ftype = .dir → ∀ ptr ∈ inode.dentrys, ∀ sub, heap[ptr]? = some sub →
      sub.inode.isSome → ∀ disk, Geometry disk →
        ∃ disk', syncInode heap junk fuel sub disk = some disk')
    {disk : Disk} (hdisk : Geometry disk) :
    ∃ disk', syncInode heap junk (fuel + 1) dentry disk = some disk' := by
  have hlt := h.lt
  have hrecord := @Geometry.write disk hdisk (inoOfs inode.ino) sizeofInodeD (3072 + 32 * ino)
    (InodeD.encode ⟨inode.ino, inode.size, dentry.ftype, inode.dirCnt⟩ junk
      (inoOfs inode.ino).toNat)
    (by rw [h.ino_eq, inoOfs, inodeOfs, inodeSize]; omega) (by rw [InodeD.length_encode]; rfl)
    (by rw [InodeD.length_encode]; omega)
  simp only [syncInode, hinode, Option.bind_eq_bind, Option.bind_some]
  rw [hrecord, Option.bind_some, h.ino_eq]
  have hdisk₁ := hdisk.bytes (overwrite disk.bytes (3072 + 32 * ino) (InodeD.encode
    ⟨ino, inode.size, dentry.ftype, inode.dirCnt⟩ junk (inoOfs ino).toNat))
  cases hftype : dentry.ftype with
  | dir =>
      have hfits : Fits ino (140 * ((0 + inode.dentrys.length : ℕ) : Int)) := by
        rw [Nat.zero_add]
        exact hdirFits hftype
      rw [hftype] at hdisk₁
      have hloop := @syncDentrys_exists heap junk (syncInode heap junk fuel) ino inode.dentrys 0
        hfits (fun ptr hptr => ?_) _ hdisk₁
      · simpa using hloop
      · obtain ⟨sub, hsub, hlegible⟩ := (h.dir hftype).2 ptr hptr
        refine ⟨sub, hsub, hlegible, fun hloaded d hd => ?_⟩
        obtain ⟨d', hsync⟩ := hrec hftype ptr hptr sub hsub hloaded d hd
        exact ⟨d', hsync, hd.sync hsync⟩
  | file =>
      obtain ⟨hlo, hhi, hdata⟩ := h.file hftype
      have hfits := hfileFits hftype
      have hregion := hfits.region
      have hnonneg := hfits.nonneg
      have hofs : daOfs ino = 130048 + 8192 * ino := by
        rw [daOfs, dataOfs, dataPerFile, dataSize]
        omega
      rw [hftype] at hdisk₁
      simp only [hdisk.blks]
      by_cases hzero : roundUp inode.size 1024 = 0
      · rw [hzero]
        exact ⟨_, hdisk₁.write_nothing (by omega) (by omega) _⟩
      · have hdevice := hfits.device hzero
        exact ⟨_, driverWrite_eq hdisk₁.szIo_pos (by omega) hnonneg (by omega)
          (hdisk₁.alignedEnd_le (by omega) hnonneg (by omega))⟩
  | symLink => exact ⟨_, rfl⟩
  | other raw => exact ⟨_, rfl⟩

end Returns

end OperateSystem.Newfs

import OperateSystem.Newfs.Chart
import OperateSystem.Newfs.Safety
import OperateSystem.Newfs.Settle

/-!
# Loading what a flush has written

Every write of a flush lies in the slot or in the data region of its inode, and the regions
of different numbers are disjoint.  So the writes of a tree whose inodes have different
numbers do not disturb each other, and loading an inode from the device reads back what
was in memory.  `newfs_alloc_dentry` links the entries in reverse order, and counts them
as long as the data bitmap has bits for them.
-/

namespace OperateSystem.Newfs

open OperateSystem.Bitmap
open OperateSystem.ByteStore

/-- `sub` is loaded and is an entry of `dentry`. -/
def Child (heap : List Dentry) (sub dentry : Dentry) : Prop :=
  ∃ inode, dentry.inode = some inode ∧ dentry.ftype = .dir ∧ ∃ ptr ∈ inode.dentrys,
    heap[ptr]? = some sub ∧ sub.inode.isSome

/-- An entry of a directory: its name has 1 to 127 bytes, and the rest of the array is
zeros. -/
structure Listed (sub : Dentry) : Prop where
  named : ∃ name : List Byte, 1 ≤ name.length ∧ name.length < maxFileName ∧ 0 ∉ name ∧
    sub.fname = name ++ List.replicate (maxFileName - name.length) 0
  ftype : ∀ raw, sub.ftype ≠ .other raw
  number : 0 ≤ sub.ino ∧ sub.ino < 496

/-- An inode that fits its slot and its data region. -/
structure Fitting (heap : List Dentry) (szIo : ℕ) (ftype : FileType) (inode : Inode) : Prop where
  number : 0 ≤ inode.ino ∧ inode.ino < 496
  dir : ftype = .dir → inode.dentrys.length ≤ 58 ∧ inode.dirCnt = inode.dentrys.length ∧
    ∀ ptr ∈ inode.dentrys, ∃ sub, heap[ptr]? = some sub ∧ Listed sub
  file : ftype = .file → 0 ≤ inode.size ∧ inode.size ≤ dataPerFile * blksSz szIo ∧
    inode.data.length = dataPerFile * blksSz szIo

/-- The loaded inodes below `root` form a tree that fits the device. -/
structure FitTree (heap : List Dentry) (szIo : ℕ) (root : Dentry) : Prop where
  loaded : root.inode.isSome
  finite : Acc (Child heap) root
  fitting : ∀ dentry inode, Reached heap root dentry → dentry.inode = some inode →
    Fitting heap szIo dentry.ftype inode
  distinct : ∀ dentry inode dentry' inode', Reached heap root dentry → dentry.inode = some inode →
    Reached heap root dentry' → dentry'.inode = some inode' → inode.ino = inode'.ino →
    dentry = dentry'

/-- The name, type and number of each dentry on a list. -/
def listing (heap : List Dentry) (ptrs : List DentryPtr) :
    List (Option (List Byte × FileType × Int)) :=
  ptrs.map fun ptr => heap[ptr]?.map fun sub => (sub.name, sub.ftype, sub.ino)

/-- The data bitmap has `n` clear bits, none of the first `n` of which is bit `max_data`. -/
def BitsFor (super : Super) (n : ℕ) : Prop :=
  n ≤ (clearList super.mapData).length ∧
    ∀ c ∈ (clearList super.mapData).take n, (c : Int) ≠ super.maxData

/-- What loading makes of an inode that had been `inode` in memory. -/
structure Reloaded (heap : List Dentry) (ftype : FileType) (inode : Inode) (fs fs' : Fs)
    (inode' : Inode) : Prop where
  ino : inode'.ino = inode.ino
  entries : ftype = .dir → listing fs'.heap inode'.dentrys = (listing heap inode.dentrys).reverse
  dirCnt : ftype = .dir → BitsFor fs.super inode.dirCnt.toNat → inode'.dirCnt = inode.dirCnt
  file : ftype = .file → inode'.size = inode.size ∧
    inode'.data.take inode.size.toNat = inode.data.take inode.size.toNat

section Regions

variable {heap : List Dentry} {szIo : ℕ} {ftype : FileType} {inode : Inode}

theorem Listed.legible {sub : Dentry} (h : Listed sub) : Legible sub := by
  obtain ⟨name, -, hlt, -, hfname⟩ := h.named
  obtain ⟨hlo, hhi⟩ := h.number
  refine ⟨?_, h.ftype, hlo, by omega⟩
  rw [hfname, List.length_append, List.length_replicate]
  omega

theorem Fitting.exists_number (h : Fitting heap szIo ftype inode) :
    ∃ ino : ℕ, inode.ino = ino ∧ ino < 496 := by
  obtain ⟨hlo, hhi⟩ := h.number
  exact ⟨inode.ino.toNat, (Int.toNat_of_nonneg hlo).symm, by omega⟩

/-- What fits keeps to its place. -/
theorem Fitting.housed (h : Fitting heap szIo ftype inode) (hblks : blksSz szIo = 1024) {ino : ℕ}
    (hino : inode.ino = ino) : Housed heap ftype inode ino := by
  have hnumber := h.number
  refine ⟨hino, by omega, ?_, ?_⟩
  · intro hdir
    obtain ⟨hlength, -, hall⟩ := h.dir hdir
    refine ⟨hlength, fun ptr hptr => ?_⟩
    obtain ⟨sub, hsub, hlisted⟩ := hall ptr hptr
    exact ⟨sub, hsub, hlisted.legible⟩
  · intro hfile
    obtain ⟨hlo, hhi, hlength⟩ := h.file hfile
    rw [hblks, dataPerFile] at hhi hlength
    exact ⟨hlo, by omega, by omega⟩

end Regions

section Trees

variable {heap : List Dentry} {szIo : ℕ} {root : Dentry}

theorem FitTree.housed (h : FitTree heap szIo root) (hblks : blksSz szIo = 1024) :
    HousedTree heap root := by
  refine ⟨h.loaded, ?_, h.distinct⟩
  intro dentry inode hreached hinode
  have hfit := h.fitting dentry inode hreached hinode
  obtain ⟨ino, hino, -⟩ := hfit.exists_number
  exact ⟨ino, hfit.housed hblks hino⟩

/-- What lies below a loaded entry is a tree as well. -/
theorem FitTree.child (h : FitTree heap szIo root) {sub : Dentry} (hchild : Child heap sub root) :
    FitTree heap szIo sub := by
  have hfinite := h.finite.inv hchild
  obtain ⟨inode, hinode, hdir, ptr, hptr, hsub, hloaded⟩ := hchild
  have hbelow : ∀ {dentry : Dentry}, Reached heap sub dentry → Reached heap root dentry :=
    fun hreached => Reached.child hinode hdir hptr hsub hloaded hreached
  refine ⟨hloaded, hfinite, ?_, ?_⟩
  · intro dentry inode hreached
    exact h.fitting dentry inode (hbelow hreached)
  · intro dentry inode dentry' inode' hreached hd hreached'
    exact h.distinct dentry inode dentry' inode' (hbelow hreached) hd (hbelow hreached')

end Trees

section Flushing

variable {heap : List Dentry} {junk : Junk}

/-- More fuel for the recursive calls changes nothing. -/
theorem syncDentrys_mono {sync sync' : Dentry → Disk → Option Disk}
    (hsync : ∀ dentry disk disk', sync dentry disk = some disk' → sync' dentry disk = some disk')
    {ptrs : List DentryPtr} {offset : Int} {disk disk' : Disk}
    (h : syncDentrys heap junk sync ptrs offset disk = some disk') :
    syncDentrys heap junk sync' ptrs offset disk = some disk' := by
  induction ptrs generalizing offset disk with
  | nil => exact h
  | cons ptr ptrs ih =>
      obtain ⟨sub, disk₁, disk₂, hsub, hwrite, hrec, hrest⟩ := syncDentrys_cons h
      have hrec' : (if sub.inode.isSome then sync' sub disk₁ else some disk₁) = some disk₂ := by
        split at hrec
        · rename_i hloaded
          rw [if_pos hloaded]
          exact hsync sub disk₁ disk₂ hrec
        · rename_i hnull
          rw [if_neg hnull]
          exact hrec
      simp only [syncDentrys, hsub, hwrite, Option.bind_eq_bind, Option.bind_some]
      rw [hrec', Option.bind_some]
      exact ih hrest

theorem syncInode_mono {fuel fuel' : ℕ} (hle : fuel ≤ fuel') {dentry : Dentry} {disk disk' : Disk}
    (h : syncInode heap junk fuel dentry disk = some disk') :
    syncInode heap junk fuel' dentry disk = some disk' := by
  induction fuel generalizing fuel' dentry disk disk' with
  | zero => cases h
  | succ fuel ih =>
      obtain ⟨more, rfl⟩ := Nat.exists_eq_succ_of_ne_zero (show fuel' ≠ 0 by omega)
      have hsync : ∀ d disk disk', syncInode heap junk fuel d disk = some disk' →
          syncInode heap junk more d disk = some disk' :=
        fun _ _ _ hd => ih (Nat.le_of_succ_le_succ hle) hd
      obtain ⟨inode, disk₁, hinode, hrecord, hrest⟩ := syncInode_succ h
      simp only [syncInode, hinode, hrecord, Option.bind_eq_bind, Option.bind_some]
      rcases hrest with ⟨hdir, hrest⟩ | ⟨hfile, hrest⟩ | ⟨hdir, hfile, rfl⟩
      · rw [hdir]
        exact syncDentrys_mono hsync hrest
      · rw [hfile]
        exact hrest
      · cases hftype : dentry.ftype with
        | dir => exact absurd hftype hdir
        | file => exact absurd hftype hfile
        | symLink => rfl
        | other raw => rfl

/-- Facts about fuel that hold from some point on for each element of a list hold for all
of them from some point on. -/
theorem exists_fuel {α : Type*} {P : α → ℕ → Prop} {l : List α}
    (hmono : ∀ a n m, n ≤ m → P a n → P a m) (h : ∀ a ∈ l, ∃ n, P a n) : ∃ n, ∀ a ∈ l, P a n := by
  induction l with
  | nil => exact ⟨0, by simp⟩
  | cons a l ih =>
      obtain ⟨n, hn⟩ := h a List.mem_cons_self
      obtain ⟨m, hm⟩ := ih fun b hb => h b (List.mem_cons_of_mem _ hb)
      refine ⟨max n m, List.forall_mem_cons.mpr ⟨hmono a n _ (le_max_left n m) hn, ?_⟩⟩
      intro b hb
      exact hmono b m _ (le_max_right n m) (hm b hb)

/-- The flush of a tree that fits returns. -/
theorem FitTree.exists_sync {szIo : ℕ} {root : Dentry} (h : FitTree heap szIo root)
    (hblks : blksSz szIo = 1024) (junk : Junk) :
    ∃ fuel, ∀ disk, Geometry disk → ∃ disk', syncInode heap junk fuel root disk = some disk' := by
  have hfinite := h.finite
  induction hfinite with
  | intro root _ ih =>
      obtain ⟨inode, hinode⟩ := Option.isSome_iff_exists.mp h.loaded
      have hfit := h.fitting root inode (Reached.refl root) hinode
      obtain ⟨ino, hino, hlt⟩ := hfit.exists_number
      have hbelow : root.ftype = .dir → ∃ fuel, ∀ ptr ∈ inode.dentrys, ∀ sub,
          heap[ptr]? = some sub → sub.inode.isSome → ∀ disk, Geometry disk →
            ∃ disk', syncInode heap junk fuel sub disk = some disk' := by
        intro hdir
        apply exists_fuel
        · intro ptr n m hle hn sub hsub hloaded disk hdisk
          obtain ⟨disk', hsync⟩ := hn sub hsub hloaded disk hdisk
          exact ⟨disk', syncInode_mono hle hsync⟩
        · intro ptr hptr
          obtain ⟨sub, hsub, -⟩ := (hfit.dir hdir).2.2 ptr hptr
          by_cases hloaded : sub.inode.isSome
          · have hchild : Child heap sub root := ⟨inode, hinode, hdir, ptr, hptr, hsub, hloaded⟩
            obtain ⟨fuel, hfuel⟩ := ih sub hchild (h.child hchild)
            refine ⟨fuel, ?_⟩
            intro sub' hsub' _
            rw [hsub] at hsub'
            cases hsub'
            exact hfuel
          · refine ⟨0, ?_⟩
            intro sub' hsub' hloaded'
            rw [hsub] at hsub'
            cases hsub'
            exact absurd hloaded' hloaded
      obtain ⟨fuel, hfuel⟩ : ∃ fuel, root.ftype = .dir → ∀ ptr ∈ inode.dentrys, ∀ sub,
          heap[ptr]? = some sub → sub.inode.isSome → ∀ disk, Geometry disk →
            ∃ disk', syncInode heap junk fuel sub disk = some disk' := by
        by_cases hdir : root.ftype = .dir
        · exact (hbelow hdir).imp fun _ hfuel _ => hfuel
        · exact ⟨0, fun hdir' => absurd hdir' hdir⟩
      refine ⟨fuel + 1, fun disk hdisk => ?_⟩
      apply (hfit.housed hblks hino).exists_sync hinode _ _ hfuel hdisk
      · intro hdir
        have hlength := (hfit.dir hdir).1
        exact ⟨by omega, by omega, fun _ => by omega⟩
      · intro hfile
        obtain ⟨hlo, hhi, -⟩ := hfit.file hfile
        rw [hblks, dataPerFile] at hhi
        have hup := roundUp_spec hlo (show (0 : Int) < 1024 by decide)
        exact ⟨by omega, by omega, fun _ => by omega⟩

end Flushing

/-! ## Loading -/

section Loading

variable {fs fs' : Fs}

/-- As long as there are bits for them every entry is counted. -/
theorem readDentrys_counts {ino i : Int} {count : ℕ} {inode inode' : Inode}
    (hblks : blksSz fs.disk.szIo = 1024) (hlo : -2 ^ 31 ≤ inode.size) (hhi : inode.size < 2 ^ 31)
    (hbits : BitsFor fs.super count)
    (h : readDentrys ino count i fs inode = some (fs', inode')) :
    inode'.dirCnt = inode.dirCnt + count := by
  induction count generalizing i fs inode with
  | zero =>
      cases h
      simp
  | succ count ih =>
      obtain ⟨bytes, sub, -, -, hrest⟩ := readDentrys_succ h
      obtain ⟨hlength, hlimit⟩ := hbits
      cases hlist : clearList fs.super.mapData with
      | nil =>
          rw [hlist] at hlength
          simp at hlength
      | cons c rest =>
          obtain ⟨mapData, hclaim, hnext⟩ := exists_claimBit_of_clearList (by decide) hlist
          rw [hlist, List.take_succ_cons, List.forall_mem_cons] at hlimit
          rw [hlist, List.length_cons] at hlength
          rw [hblks, allocDentry_claim _ hlo hhi hclaim, if_neg hlimit.1] at hrest
          have hrec := ih (by exact hblks) (toInt32_range _).1 (toInt32_range _).2
            ⟨by rw [hnext]; omega, by rw [hnext]; exact hlimit.2⟩ hrest
          rw [hrec]
          push_cast
          ring

/-- The dentries that loading adds are those that were in memory. -/
theorem OnDisk.listing_eq {heap : List Dentry} {inode inode' : Inode} {ino : ℕ}
    (h : OnDisk heap fs.disk.bytes .dir inode ino)
    (hall : ∀ ptr ∈ inode.dentrys, ∃ sub, heap[ptr]? = some sub) {start : Inode}
    (hstart : start.dentrys = [])
    (hread : readDentrys ino inode.dentrys.length 0 fs start = some (fs', inode')) :
    listing fs'.heap inode'.dentrys = (listing heap inode.dentrys).reverse := by
  obtain ⟨hdentrys, -⟩ := readDentrys_links hread
  rw [← Nat.cast_zero] at hread
  obtain ⟨more, hmore, hlength, hentries⟩ := readDentrys_entries hread
  rw [hstart, List.append_nil] at hdentrys
  rw [hdentrys, listing, List.map_reverse]
  congr 1
  apply List.ext_getElem?
  intro k
  rw [listing, List.getElem?_map, List.getElem?_map]
  by_cases hk : k < inode.dentrys.length
  · obtain ⟨sub, hsub⟩ := hall _ (List.getElem_mem hk)
    have hptr := List.getElem?_eq_getElem hk
    obtain ⟨-, -, hname, hftype, hino⟩ :=
      hentries k _ (List.getElem?_eq_getElem (show k < more.length by omega))
    rw [Nat.zero_add, h.entries rfl k _ sub hptr hsub] at hname hftype hino
    rw [List.getElem?_range' hk, hptr, Option.map_some, Option.map_some, hsub, hmore,
      Nat.one_mul, List.getElem?_append_right (Nat.le_add_right _ _), Nat.add_sub_cancel_left,
      List.getElem?_eq_getElem (show k < more.length by omega), Option.map_some, Option.map_some,
      hname, hftype, hino]
    rfl
  · rw [List.getElem?_eq_none_iff.mpr (by rw [List.length_range']; omega),
      List.getElem?_eq_none_iff.mpr (Nat.le_of_not_lt hk)]
    rfl

/-- Loading a fitting inode from a device that has it. -/
theorem OnDisk.reload {heap : List Dentry} {ftype : FileType} {inode : Inode} {ino : ℕ}
    (hdisk : Geometry fs.disk) (hfit : Fitting heap fs.disk.szIo ftype inode)
    (hino : inode.ino = ino) (h : OnDisk heap fs.disk.bytes ftype inode ino) :
    ∃ fs' inode', readInode fs ftype ino = some (fs', inode') ∧
      Reloaded heap ftype inode fs fs' inode' := by
  have hlt := hfit.number
  have hrecord := h.record
  have hcount : ftype = .dir → toInt32 inode.dirCnt = inode.dentrys.length := by
    intro hdir
    obtain ⟨hle, hcnt, -⟩ := hfit.dir hdir
    rw [toInt32_of_range (by omega) (by omega), hcnt]
  have hreadable : Readable fs.disk ftype ino := by
    have hsize := hdisk.size_eq
    refine ⟨⟨?_, ?_⟩, ?_, ?_⟩
    · rw [inoOfs, inodeOfs, inodeSize]
      omega
    · rw [inoOfs, inodeOfs, inodeSize, sizeofInodeD, hsize]
      omega
    · intro hdir i hi
      rw [inoOfs_toNat, ← diskInode, hrecord] at hi
      simp only [hcount hdir] at hi
      have hle := (hfit.dir hdir).1
      constructor
      · rw [daOfs, dataOfs, dataPerFile, dataSize, sizeofDentryD]
        omega
      · rw [daOfs, dataOfs, dataPerFile, dataSize, sizeofDentryD, hsize]
        omega
    · intro _
      rw [hdisk.blks]
      constructor
      · rw [daOfs, dataOfs, dataPerFile, dataSize]
        omega
      · rw [daOfs, dataOfs, dataPerFile, dataSize, hsize]
        omega
  obtain ⟨⟨fs', inode'⟩, hread⟩ :=
    Option.isSome_iff_exists.mp ((readInode_isSome hdisk).mpr hreadable)
  refine ⟨fs', inode', hread, ?_⟩
  obtain ⟨bytes, hbytes, hcases⟩ := readInode_some hread
  have hdecode : InodeD.decode bytes = diskInode fs.disk.bytes ino := by
    rw [(driverRead_some hbytes).2.2, inoOfs_toNat]
    rfl
  rw [hdecode, hrecord] at hcases
  simp only at hcases
  rcases hcases with ⟨rfl, hrest⟩ | ⟨rfl, rfl, data, hdata, rfl⟩ | ⟨hdir, hfile, rfl, rfl⟩
  · rw [hcount rfl, Int.toNat_natCast] at hrest
    obtain ⟨-, hcnt, hall⟩ := hfit.dir rfl
    refine ⟨?_, fun _ => ?_, fun _ hbits => ?_, by simp⟩
    · rw [(readDentrys_grows hrest).2.2.2, hino]
    · exact h.listing_eq (fun ptr hptr => (hall ptr hptr).imp fun _ hsub => hsub.1) rfl hrest
    · rw [hcnt, Int.toNat_natCast] at hbits
      rw [readDentrys_counts hdisk.blks (toInt32_range _).1 (toInt32_range _).2 hbits hrest, hcnt,
        Int.zero_add]
  · obtain ⟨hlo, hhi, -⟩ := hfit.file rfl
    rw [hdisk.blks, dataPerFile] at hhi
    have hstart := daOfs_toNat ino 0
    rw [Nat.cast_zero, Int.zero_mul, Int.add_zero, Nat.mul_zero, Nat.add_zero] at hstart
    refine ⟨hino.symm, by simp, by simp, fun _ => ⟨toInt32_of_range (by omega) (by omega), ?_⟩⟩
    rw [(driverRead_some hdata).2.2, hdisk.blks, hstart,
      take_slice _ _ _ _ (by rw [dataPerFile]; omega)]
    exact h.data rfl
  · exact ⟨hino.symm, fun heq => absurd heq hdir, fun heq => absurd heq hdir,
      fun heq => absurd heq hfile⟩

end Loading

/-- **Flush and load are inverse on trees that fit.** -/
theorem sync_then_read {heap : List Dentry} {disk : Disk} {root : Dentry} (hdisk : Geometry disk)
    (h : FitTree heap disk.szIo root) (junk : Junk) :
    ∃ fuel disk', (∀ fuel', fuel ≤ fuel' → syncInode heap junk fuel' root disk = some disk') ∧
      (∀ dentry inode, Reached heap root dentry → dentry.inode = some inode →
        ∀ fs : Fs, fs.disk = disk' → ∃ fs' inode',
          readInode fs dentry.ftype inode.ino = some (fs', inode') ∧
            Reloaded heap dentry.ftype inode fs fs' inode') ∧
      ∀ other : ℕ, other < 496 → (∀ dentry inode, Reached heap root dentry →
        dentry.inode = some inode → inode.ino ≠ other) →
        slice disk'.bytes (3072 + 32 * other) 32 = slice disk.bytes (3072 + 32 * other) 32 ∧
          slice disk'.bytes (130048 + 8192 * other) 8192
            = slice disk.bytes (130048 + 8192 * other) 8192 := by
  obtain ⟨fuel, hfuel⟩ := h.exists_sync hdisk.blks junk
  obtain ⟨disk', hsync⟩ := hfuel disk hdisk
  refine ⟨fuel, disk', fun fuel' hle => syncInode_mono hle hsync, ?_, ?_⟩
  · rintro dentry inode hreached hinode fs rfl
    have hfit := h.fitting dentry inode hreached hinode
    obtain ⟨ino, hino, -⟩ := hfit.exists_number
    have hon := (h.housed hdisk.blks).onDisk hdisk.blks rfl hsync hreached hinode
      (hfit.housed hdisk.blks hino)
    rw [hino]
    rw [← (syncInode_geometry hsync).2] at hfit
    exact hon.reload (hdisk.sync hsync) hfit hino
  · intro other hother hnot
    exact (h.housed hdisk.blks).untouched hdisk.blks rfl hsync (by omega) hnot

section Example

/-- A file "a" with three bytes. -/
def sampleFile : Dentry where
  fname := 97 :: List.replicate 127 0
  ftype := .file
  ino := 1
  inode := some ⟨1, 3, 0, [], 7 :: 8 :: 9 :: List.replicate 8189 0⟩

/-- A root directory with one entry, the dentry 1. -/
def sampleRoot : Dentry where
  fname := 47 :: List.replicate 127 0
  ftype := .dir
  ino := -1
  inode := some ⟨0, 176, 1, [1], []⟩

theorem child_sample {sub dentry : Dentry} (h : Child [sampleRoot, sampleFile] sub dentry)
    (hdentry : dentry = sampleRoot ∨ dentry = sampleFile) :
    dentry = sampleRoot ∧ sub = sampleFile := by
  obtain ⟨inode, hinode, hdir, ptr, hptr, hsub, -⟩ := h
  rcases hdentry with rfl | rfl
  · cases hinode
    rw [List.mem_singleton.mp hptr] at hsub
    exact ⟨rfl, (Option.some.inj hsub).symm⟩
  · cases hdir

theorem reached_sample {dentry : Dentry}
    (h : Reached [sampleRoot, sampleFile] sampleRoot dentry) :
    dentry = sampleRoot ∨ dentry = sampleFile := by
  have hall : ∀ {start d}, Reached [sampleRoot, sampleFile] start d →
      start = sampleRoot ∨ start = sampleFile → d = sampleRoot ∨ d = sampleFile := by
    intro start d hreached hstart
    induction hreached with
    | refl => exact hstart
    | child hinode hdir hptr hsub hloaded _ ih =>
        exact ih (Or.inr (child_sample ⟨_, hinode, hdir, _, hptr, hsub, hloaded⟩ hstart).2)
  exact hall h (Or.inl rfl)

theorem fitTree_sample : FitTree [sampleRoot, sampleFile] 512 sampleRoot := by
  have hlisted : Listed sampleFile :=
    ⟨⟨[97], by decide, by decide, by decide, rfl⟩, by rintro raw ⟨⟩, by decide⟩
  refine ⟨rfl, ?_, ?_, ?_⟩
  · have hleaf : Acc (Child [sampleRoot, sampleFile]) sampleFile := by
      constructor
      intro sub hsub
      have hroot := (child_sample hsub (Or.inr rfl)).1
      cases hroot
    constructor
    intro sub hsub
    rw [(child_sample hsub (Or.inl rfl)).2]
    exact hleaf
  · intro dentry inode hreached hinode
    rcases reached_sample hreached with rfl | rfl
    · cases hinode
      refine ⟨by decide, fun _ => ⟨by decide, rfl, ?_⟩, by rintro ⟨⟩⟩
      intro ptr hptr
      rw [List.mem_singleton.mp hptr]
      exact ⟨sampleFile, rfl, hlisted⟩
    · cases hinode
      refine ⟨by decide, by rintro ⟨⟩, fun _ => ⟨by decide, by decide, ?_⟩⟩
      simp only [List.length_cons, List.length_replicate]
      decide
  · intro dentry inode dentry' inode' hreached hinode hreached' hinode' heq
    rcases reached_sample hreached with rfl | rfl <;>
      rcases reached_sample hreached' with rfl | rfl
    · rfl
    · cases hinode
      cases hinode'
      cases heq
    · cases hinode
      cases hinode'
      cases heq
    · rfl

/-- The three bytes of the file, written to a new device and read again. -/
theorem sync_then_read_sample : ∃ fuel disk',
    syncInode [sampleRoot, sampleFile] (fun _ => 0) fuel sampleRoot (blankDisk 512) = some disk' ∧
      ∀ super, ∃ fs' inode', readInode ⟨disk', super, []⟩ .file 1 = some (fs', inode') ∧
        inode'.size = 3 ∧ inode'.data.take 3 = [7, 8, 9] := by
  have hgeometry : Geometry (blankDisk 512) := ⟨rfl, by decide⟩
  obtain ⟨fuel, disk', hsync, hread, -⟩ :=
    sync_then_read hgeometry fitTree_sample fun _ => 0
  have hreached : Reached [sampleRoot, sampleFile] sampleRoot sampleFile :=
    .child rfl rfl (List.mem_singleton_self 1) rfl rfl (.refl sampleFile)
  refine ⟨fuel, disk', hsync fuel (le_refl fuel), fun super => ?_⟩
  obtain ⟨fs', inode', hload, hreloaded⟩ :=
    hread sampleFile _ hreached rfl ⟨disk', super, []⟩ rfl
  obtain ⟨hsize, hdata⟩ := hreloaded.file rfl
  exact ⟨fs', inode', hload, hsize, hdata⟩

end Example

end OperateSystem.Newfs

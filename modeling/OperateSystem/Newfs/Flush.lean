import OperateSystem.Newfs.Inode

/-!
# What a flush writes

`newfs_sync_inode` walks the loaded part of the tree and issues one device write
after another.  `Flushes` lists the writes made for one inode.  Two rules follow
from it: what every single write keeps, the whole flush keeps, and when no two
writes of the tree disagree about a byte, each of them is on disk at the end.
-/

namespace OperateSystem.Newfs

open OperateSystem.ByteStore

/-- A write that `newfs_sync_inode` makes for the inode of `dentry` itself. -/
inductive Flushes (heap : List Dentry) (junk : Junk) (szIo : ℕ) (dentry : Dentry) :
    ℕ → List Byte → Prop
  | inode {inode : Inode} (hinode : dentry.inode = some inode)
      (hofs : 0 ≤ inoOfs inode.ino) :
      Flushes heap junk szIo dentry (inoOfs inode.ino).toNat
        (InodeD.encode ⟨inode.ino, inode.size, dentry.ftype, inode.dirCnt⟩ junk
          (inoOfs inode.ino).toNat)
  | entry {inode : Inode} {i : ℕ} {ptr : DentryPtr} {sub : Dentry} {ofs : Int}
      (hinode : dentry.inode = some inode) (hdir : dentry.ftype = .dir)
      (hptr : inode.dentrys[i]? = some ptr) (hsub : heap[ptr]? = some sub)
      (heq : ofs = daOfs inode.ino + i * sizeofDentryD) (hofs : 0 ≤ daOfs inode.ino) :
      Flushes heap junk szIo dentry ofs.toNat
        ((DentryD.encode ⟨sub.fname, sub.ftype, sub.ino⟩ junk ofs.toNat).take 140)
  | data {inode : Inode} (hinode : dentry.inode = some inode) (hfile : dentry.ftype = .file)
      (hofs : 0 ≤ daOfs inode.ino) :
      Flushes heap junk szIo dentry (daOfs inode.ino).toNat
        (inode.data.take (roundUp inode.size (blksSz szIo)).toNat)

/-- `dentry` is flushed in the flush of `start`. -/
inductive Reached (heap : List Dentry) : Dentry → Dentry → Prop
  | refl (dentry : Dentry) : Reached heap dentry dentry
  | child {start sub dentry : Dentry} {inode : Inode} {ptr : DentryPtr}
      (hinode : start.inode = some inode) (hdir : start.ftype = .dir)
      (hptr : ptr ∈ inode.dentrys) (hsub : heap[ptr]? = some sub)
      (hloaded : sub.inode.isSome) (hreached : Reached heap sub dentry) :
      Reached heap start dentry

/-- Two range writes put the same byte wherever they overlap. -/
def Agree (ofs₁ : ℕ) (content₁ : List Byte) (ofs₂ : ℕ) (content₂ : List Byte) : Prop :=
  ∀ i j (hi : i < content₁.length) (hj : j < content₂.length),
    ofs₁ + i = ofs₂ + j → content₁[i] = content₂[j]

theorem agree_of_disjoint {ofs₁ ofs₂ : ℕ} {content₁ content₂ : List Byte}
    (hdisjoint : ofs₁ + content₁.length ≤ ofs₂ ∨ ofs₂ + content₂.length ≤ ofs₁) :
    Agree ofs₁ content₁ ofs₂ content₂ := by
  intro i j hi hj heq
  omega

theorem Agree.refl (ofs : ℕ) (content : List Byte) : Agree ofs content ofs content := by
  intro i j hi hj heq
  have hij : i = j := by omega
  subst hij
  rfl

/-- Content that is already on disk survives a write that agrees with it. -/
theorem Agree.slice_overwrite {bytes : ℕ → Byte} {ofs₁ ofs₂ : ℕ}
    {content₁ content₂ : List Byte} (hagree : Agree ofs₁ content₁ ofs₂ content₂)
    (hon : slice bytes ofs₁ content₁.length = content₁) :
    slice (overwrite bytes ofs₂ content₂) ofs₁ content₁.length = content₁ := by
  apply List.ext_getElem?
  intro i
  rw [getElem?_slice]
  by_cases hi : i < content₁.length
  · rw [if_pos hi, List.getElem?_eq_getElem hi]
    rcases overwrite_cases bytes ofs₂ content₂ (ofs₁ + i) with ⟨j, hj, haddr, hval⟩ | ⟨-, hval⟩
    · rw [hval, hagree i j hi hj haddr]
    · have hget := congrArg (fun cells => cells[i]?) hon
      simp only [getElem?_slice, if_pos hi, List.getElem?_eq_getElem hi] at hget
      rw [hval, hget]
  · rw [if_neg hi, List.getElem?_eq_none_iff.mpr (by omega)]

section Equations

variable {heap : List Dentry} {junk : Junk}

/-- One turn of the loop over the entries. -/
theorem syncDentrys_cons {sync : Dentry → Disk → Option Disk} {ptr : DentryPtr}
    {ptrs : List DentryPtr} {offset : Int} {disk disk' : Disk}
    (h : syncDentrys heap junk sync (ptr :: ptrs) offset disk = some disk') :
    ∃ sub disk₁ disk₂, heap[ptr]? = some sub ∧
      writeDentry junk disk offset sub = some disk₁ ∧
      (if sub.inode.isSome then sync sub disk₁ else some disk₁) = some disk₂ ∧
      syncDentrys heap junk sync ptrs (offset + sizeofDentryD) disk₂ = some disk' := by
  simp only [syncDentrys, Option.bind_eq_bind] at h
  obtain ⟨sub, hsub, h⟩ := Option.bind_eq_some_iff.mp h
  obtain ⟨disk₁, hwrite, h⟩ := Option.bind_eq_some_iff.mp h
  obtain ⟨disk₂, hsync, h⟩ := Option.bind_eq_some_iff.mp h
  exact ⟨sub, disk₁, disk₂, hsub, hwrite, hsync, h⟩

/-- A flush writes the inode record and then the data of the inode. -/
theorem syncInode_succ {fuel : ℕ} {dentry : Dentry} {disk disk' : Disk}
    (h : syncInode heap junk (fuel + 1) dentry disk = some disk') :
    ∃ inode disk₁, dentry.inode = some inode ∧
      driverWrite disk (inoOfs inode.ino)
        (InodeD.encode ⟨inode.ino, inode.size, dentry.ftype, inode.dirCnt⟩ junk
          (inoOfs inode.ino).toNat) sizeofInodeD = some disk₁ ∧
      ((dentry.ftype = .dir ∧ syncDentrys heap junk (syncInode heap junk fuel) inode.dentrys
          (daOfs inode.ino) disk₁ = some disk') ∨
        (dentry.ftype = .file ∧ driverWrite disk₁ (daOfs inode.ino) inode.data
          (roundUp inode.size (blksSz disk₁.szIo)) = some disk') ∨
        (dentry.ftype ≠ .dir ∧ dentry.ftype ≠ .file ∧ disk' = disk₁)) := by
  simp only [syncInode, Option.bind_eq_bind] at h
  obtain ⟨inode, hinode, h⟩ := Option.bind_eq_some_iff.mp h
  obtain ⟨disk₁, hwrite, h⟩ := Option.bind_eq_some_iff.mp h
  refine ⟨inode, disk₁, hinode, hwrite, ?_⟩
  cases hftype : dentry.ftype with
  | dir => exact Or.inl ⟨rfl, by simpa [hftype] using h⟩
  | file => exact Or.inr (Or.inl ⟨rfl, by simpa [hftype] using h⟩)
  | symLink => exact Or.inr (Or.inr ⟨by simp, by simp, by simpa [hftype] using h.symm⟩)
  | other raw => exact Or.inr (Or.inr ⟨by simp, by simp, by simpa [hftype] using h.symm⟩)

end Equations

section Rules

variable {heap : List Dentry} {junk : Junk} {szIo : ℕ}

/-- The loop over the entries keeps what each record and each recursive flush
keeps. -/
theorem syncDentrys_preserves (Inv : Disk → Prop) {sync : Dentry → Disk → Option Disk}
    {ptrs : List DentryPtr} {offset : Int} {disk disk' : Disk}
    (hentry : ∀ i ptr sub disk disk', 0 ≤ offset → ptrs[i]? = some ptr →
      heap[ptr]? = some sub →
      writeDentry junk disk (offset + (i : ℕ) * sizeofDentryD) sub = some disk' →
      Inv disk → Inv disk')
    (hsync : ∀ ptr sub disk disk', ptr ∈ ptrs → heap[ptr]? = some sub → sub.inode.isSome →
      sync sub disk = some disk' → Inv disk → Inv disk')
    (hdisk : Inv disk) (h : syncDentrys heap junk sync ptrs offset disk = some disk') :
    Inv disk' := by
  induction ptrs generalizing offset disk with
  | nil =>
      cases h
      exact hdisk
  | cons ptr ptrs ih =>
      obtain ⟨sub, disk₁, disk₂, hsub, hwrite, hrec, hrest⟩ := syncDentrys_cons h
      have hofs : 0 ≤ offset := (driverWrite_some hwrite).1
      have hdisk₁ : Inv disk₁ := by
        apply hentry 0 ptr sub disk disk₁ hofs rfl hsub _ hdisk
        simpa using hwrite
      have hdisk₂ : Inv disk₂ := by
        split at hrec
        · rename_i hloaded
          exact hsync ptr sub disk₁ disk₂ (by simp) hsub hloaded hrec hdisk₁
        · cases hrec
          exact hdisk₁
      apply ih _ _ hdisk₂ hrest
      · intro i ptr' sub' d d' _ hptr' hsub' hwrite'
        have hshift : offset + sizeofDentryD + (i : ℕ) * sizeofDentryD
            = offset + ((i + 1 : ℕ) : Int) * sizeofDentryD := by
          push_cast
          rw [Int.add_mul]
          omega
        rw [hshift] at hwrite'
        exact hentry (i + 1) ptr' sub' d d' hofs (by simpa using hptr') hsub' hwrite'
      · intro ptr' sub' d d' hptr'
        exact hsync ptr' sub' d d' (by simp [hptr'])

/-- What one turn of the loop establishes and every turn keeps holds at the end. -/
theorem syncDentrys_establishes (Inv : Disk → Prop) {sync : Dentry → Disk → Option Disk}
    {ptrs : List DentryPtr} {offset : Int} {disk disk' : Disk} {i : ℕ} {ptr : DentryPtr}
    {sub : Dentry} (hptr : ptrs[i]? = some ptr) (hsub : heap[ptr]? = some sub)
    (hentry : ∀ i ptr sub disk disk', 0 ≤ offset → ptrs[i]? = some ptr →
      heap[ptr]? = some sub →
      writeDentry junk disk (offset + (i : ℕ) * sizeofDentryD) sub = some disk' →
      Inv disk → Inv disk')
    (hsync : ∀ ptr sub disk disk', ptr ∈ ptrs → heap[ptr]? = some sub → sub.inode.isSome →
      sync sub disk = some disk' → Inv disk → Inv disk')
    (hszIo : ∀ sub disk disk', sync sub disk = some disk' → disk'.szIo = disk.szIo)
    (hturn : ∀ disk₁ disk₂ disk₃, 0 ≤ offset → disk₁.szIo = disk.szIo →
      writeDentry junk disk₁ (offset + i * sizeofDentryD) sub = some disk₂ →
      (if sub.inode.isSome then sync sub disk₂ else some disk₂) = some disk₃ → Inv disk₃)
    (h : syncDentrys heap junk sync ptrs offset disk = some disk') :
    Inv disk' := by
  induction ptrs generalizing offset disk i with
  | nil => simp at hptr
  | cons first ptrs ih =>
      obtain ⟨sub₀, disk₁, disk₂, hsub₀, hwrite, hrec, hrest⟩ := syncDentrys_cons h
      have hshift : ∀ i : ℕ, offset + sizeofDentryD + (i : ℕ) * sizeofDentryD
          = offset + ((i + 1 : ℕ) : Int) * sizeofDentryD := by
        intro i
        push_cast
        rw [Int.add_mul]
        omega
      have hofs : 0 ≤ offset := (driverWrite_some hwrite).1
      have hentry' : ∀ i ptr sub disk disk', 0 ≤ offset + sizeofDentryD →
          ptrs[i]? = some ptr → heap[ptr]? = some sub →
          writeDentry junk disk (offset + sizeofDentryD + (i : ℕ) * sizeofDentryD) sub
            = some disk' → Inv disk → Inv disk' := by
        intro i ptr' sub' d d' _ hptr' hsub' hwrite'
        rw [hshift] at hwrite'
        exact hentry (i + 1) ptr' sub' d d' hofs (by simpa using hptr') hsub' hwrite'
      have hsync' : ∀ ptr sub disk disk', ptr ∈ ptrs → heap[ptr]? = some sub →
          sub.inode.isSome → sync sub disk = some disk' → Inv disk → Inv disk' := by
        intro ptr' sub' d d' hptr'
        exact hsync ptr' sub' d d' (by simp [hptr'])
      cases i with
      | zero =>
          have hfirst : first = ptr := by simpa using hptr
          subst hfirst
          have hsame : sub₀ = sub := Option.some.inj (hsub₀.symm.trans hsub)
          subst hsame
          have hdisk₂ : Inv disk₂ := hturn disk disk₁ disk₂ hofs rfl (by simpa using hwrite) hrec
          exact syncDentrys_preserves Inv hentry' hsync' hdisk₂ hrest
      | succ i =>
          have hio : disk₂.szIo = disk.szIo := by
            have hio₁ : disk₁.szIo = disk.szIo := by
              rw [(driverWrite_some hwrite).2.2.2]
            rw [← hio₁]
            split at hrec
            · exact hszIo sub₀ disk₁ disk₂ hrec
            · rw [Option.some.inj hrec]
          apply ih (by simpa using hptr) hentry' hsync' _ hrest
          intro d d₁ d₂ _ hd hwrite'
          rw [hshift] at hwrite'
          exact hturn d d₁ d₂ hofs (hd.trans hio) hwrite'

/-- An entry record is one of the writes of its directory. -/
theorem flushes_writeDentry {dentry sub : Dentry} {inode : Inode} {i : ℕ} {ptr : DentryPtr}
    {disk disk' : Disk} (hinode : dentry.inode = some inode) (hdir : dentry.ftype = .dir)
    (hofs : 0 ≤ daOfs inode.ino) (hptr : inode.dentrys[i]? = some ptr)
    (hsub : heap[ptr]? = some sub)
    (h : writeDentry junk disk (daOfs inode.ino + i * sizeofDentryD) sub = some disk') :
    ∃ ofs content, Flushes heap junk szIo dentry ofs content ∧
      disk' = { disk with bytes := overwrite disk.bytes ofs content } := by
  obtain ⟨-, -, -, hdisk⟩ := driverWrite_some h
  exact ⟨_, _, Flushes.entry hinode hdir hptr hsub rfl hofs, hdisk⟩

/-- The inode record is one of the writes of its inode. -/
theorem flushes_inode {dentry : Dentry} {inode : Inode} {disk disk' : Disk}
    (hinode : dentry.inode = some inode)
    (h : driverWrite disk (inoOfs inode.ino)
      (InodeD.encode ⟨inode.ino, inode.size, dentry.ftype, inode.dirCnt⟩ junk
        (inoOfs inode.ino).toNat) sizeofInodeD = some disk') :
    ∃ ofs content, Flushes heap junk szIo dentry ofs content ∧
      disk' = { disk with bytes := overwrite disk.bytes ofs content } := by
  obtain ⟨hofs, -, -, hdisk⟩ := driverWrite_some h
  refine ⟨_, _, Flushes.inode hinode hofs, ?_⟩
  rw [hdisk, List.take_of_length_le (by simp [sizeofInodeD])]

/-- A flush keeps whatever each of its writes keeps. -/
theorem syncInode_preserves (Inv : Disk → Prop) {start : Dentry}
    (hwrite : ∀ dentry ofs content disk, Reached heap start dentry →
      Flushes heap junk disk.szIo dentry ofs content → Inv disk →
      Inv { disk with bytes := overwrite disk.bytes ofs content })
    {fuel : ℕ} {disk disk' : Disk} (hdisk : Inv disk)
    (h : syncInode heap junk fuel start disk = some disk') : Inv disk' := by
  induction fuel generalizing start disk disk' with
  | zero => simp [syncInode] at h
  | succ fuel ih =>
      obtain ⟨inode, disk₁, hinode, hrecord, hrest⟩ := syncInode_succ h
      have hdisk₁ : Inv disk₁ := by
        obtain ⟨ofs, content, hflush, rfl⟩ := flushes_inode hinode hrecord
        exact hwrite start ofs content disk (Reached.refl start) hflush hdisk
      rcases hrest with ⟨hdir, hrest⟩ | ⟨hfile, hrest⟩ | ⟨-, -, rfl⟩
      · apply syncDentrys_preserves Inv _ _ hdisk₁ hrest
        · intro i ptr sub d d' hofs hptr hsub hentry hd
          obtain ⟨ofs, content, hflush, rfl⟩ :=
            flushes_writeDentry hinode hdir hofs hptr hsub hentry
          exact hwrite start ofs content d (Reached.refl start) hflush hd
        · intro ptr sub d d' hptr hsub hloaded hrec hd
          apply ih _ hd hrec
          intro dentry ofs content d hreached
          exact hwrite dentry ofs content d
            (Reached.child hinode hdir hptr hsub hloaded hreached)
      · obtain ⟨hofs, -, -, rfl⟩ := driverWrite_some hrest
        exact hwrite start _ _ disk₁ (Reached.refl start) (Flushes.data hinode hfile hofs) hdisk₁
      · exact hdisk₁

/-- A flush changes nothing but the contents of the device. -/
theorem syncInode_geometry {fuel : ℕ} {start : Dentry} {disk disk' : Disk}
    (h : syncInode heap junk fuel start disk = some disk') :
    disk'.size = disk.size ∧ disk'.szIo = disk.szIo := by
  apply syncInode_preserves (fun d => d.size = disk.size ∧ d.szIo = disk.szIo) _ ⟨rfl, rfl⟩ h
  intro dentry ofs content d _ _ hd
  exact hd

/-- `content` is on disk at `ofs`. -/
structure Settled (szIo ofs : ℕ) (content : List Byte) (disk : Disk) : Prop where
  szIo_eq : disk.szIo = szIo
  on : slice disk.bytes ofs content.length = content

theorem settled_write {ofs : ℕ} {content : List Byte} {disk : Disk} (hszIo : disk.szIo = szIo) :
    Settled szIo ofs content { disk with bytes := overwrite disk.bytes ofs content } :=
  ⟨hszIo, slice_overwrite_self disk.bytes ofs content⟩

section Settle

variable {start : Dentry} {ofs : ℕ} {content : List Byte}
  (hagree : ∀ dentry ofs' content', Reached heap start dentry →
    Flushes heap junk szIo dentry ofs' content' → Agree ofs content ofs' content')

include hagree

/-- When no write of a flush disagrees with `content`, the flush keeps it on
disk. -/
theorem syncInode_keeps {fuel : ℕ} {disk disk' : Disk} (hdisk : Settled szIo ofs content disk)
    (h : syncInode heap junk fuel start disk = some disk') : Settled szIo ofs content disk' := by
  apply syncInode_preserves (Settled szIo ofs content) _ hdisk h
  intro dentry ofs' content' d hreached hflush hd
  rw [hd.szIo_eq] at hflush
  exact ⟨hd.szIo_eq, (hagree dentry ofs' content' hreached hflush).slice_overwrite hd.on⟩

/-- The same for one entry record of the flush. -/
theorem writeDentry_keeps {inode : Inode} (hinode : start.inode = some inode)
    (hdir : start.ftype = .dir) (i : ℕ) (ptr : DentryPtr) (sub : Dentry) (disk disk' : Disk)
    (hofs : 0 ≤ daOfs inode.ino) (hptr : inode.dentrys[i]? = some ptr)
    (hsub : heap[ptr]? = some sub)
    (h : writeDentry junk disk (daOfs inode.ino + i * sizeofDentryD) sub = some disk')
    (hdisk : Settled szIo ofs content disk) : Settled szIo ofs content disk' := by
  obtain ⟨ofs', content', hflush, rfl⟩ := flushes_writeDentry hinode hdir hofs hptr hsub h
  exact ⟨hdisk.szIo_eq,
    (hagree start ofs' content' (Reached.refl start) hflush).slice_overwrite hdisk.on⟩

/-- The same for the flush of one child. -/
theorem syncChild_keeps {inode : Inode} (hinode : start.inode = some inode)
    (hdir : start.ftype = .dir) {fuel : ℕ} (ptr : DentryPtr) (sub : Dentry) (disk disk' : Disk)
    (hptr : ptr ∈ inode.dentrys) (hsub : heap[ptr]? = some sub) (hloaded : sub.inode.isSome)
    (h : syncInode heap junk fuel sub disk = some disk')
    (hdisk : Settled szIo ofs content disk) : Settled szIo ofs content disk' := by
  apply syncInode_keeps _ hdisk h
  intro dentry ofs' content' hreached
  exact hagree dentry ofs' content' (Reached.child hinode hdir hptr hsub hloaded hreached)

/-- When the writes of a flush agree, each write for its first inode is on disk
afterwards. -/
theorem syncInode_settles_self (hflush : Flushes heap junk szIo start ofs content)
    {fuel : ℕ} {disk disk' : Disk} (hszIo : disk.szIo = szIo)
    (h : syncInode heap junk fuel start disk = some disk') : Settled szIo ofs content disk' := by
  cases fuel with
  | zero => simp [syncInode] at h
  | succ fuel =>
      obtain ⟨inode, disk₁, hinode, hrecord, hrest⟩ := syncInode_succ h
      have hio₁ : disk₁.szIo = szIo := by
        rw [(driverWrite_some hrecord).2.2.2]
        exact hszIo
      cases hflush with
      | @inode inode' hinode' hofs =>
          have hsame : inode' = inode := Option.some.inj (hinode'.symm.trans hinode)
          subst hsame
          have hdisk₁ : Settled szIo (inoOfs inode'.ino).toNat
              (InodeD.encode ⟨inode'.ino, inode'.size, start.ftype, inode'.dirCnt⟩ junk
                (inoOfs inode'.ino).toNat) disk₁ := by
            rw [(driverWrite_some hrecord).2.2.2]
            rw [List.take_of_length_le (by simp [sizeofInodeD])]
            exact settled_write hszIo
          rcases hrest with ⟨hdir, hrest⟩ | ⟨hfile, hrest⟩ | ⟨-, -, rfl⟩
          · exact syncDentrys_preserves _ (writeDentry_keeps hagree hinode hdir)
              (syncChild_keeps hagree hinode hdir) hdisk₁ hrest
          · rw [hio₁] at hrest
            obtain ⟨hofs', -, -, rfl⟩ := driverWrite_some hrest
            exact ⟨hio₁, (hagree start _ _ (Reached.refl start)
              (Flushes.data hinode hfile hofs')).slice_overwrite hdisk₁.on⟩
          · exact hdisk₁
      | @entry inode' i ptr sub ofs' hinode' hdir hptr hsub heq hofs =>
          have hsame : inode' = inode := Option.some.inj (hinode'.symm.trans hinode)
          subst hsame
          subst heq
          rcases hrest with ⟨-, hrest⟩ | ⟨hfile, -⟩ | ⟨hne, -⟩
          · apply syncDentrys_establishes _ hptr hsub (writeDentry_keeps hagree hinode hdir)
              (syncChild_keeps hagree hinode hdir) _ _ hrest
            · intro sub d d' hsync
              exact (syncInode_geometry hsync).2
            · intro d₁ d₂ d₃ _ hio hwrite hrec
              have hd₂ : Settled szIo (daOfs inode'.ino + i * sizeofDentryD).toNat
                  ((DentryD.encode ⟨sub.fname, sub.ftype, sub.ino⟩ junk
                    (daOfs inode'.ino + i * sizeofDentryD).toNat).take 140) d₂ := by
                rw [(driverWrite_some hwrite).2.2.2]
                exact settled_write (hio.trans hio₁)
              split at hrec
              · rename_i hloaded
                exact syncChild_keeps hagree hinode hdir ptr sub d₂ d₃
                  (List.mem_of_getElem? hptr) hsub hloaded hrec hd₂
              · cases hrec
                exact hd₂
          · rw [hdir] at hfile
            cases hfile
          · exact absurd hdir hne
      | @data inode' hinode' hfile hofs =>
          have hsame : inode' = inode := Option.some.inj (hinode'.symm.trans hinode)
          subst hsame
          rcases hrest with ⟨hdir, -⟩ | ⟨-, hrest⟩ | ⟨-, hne, -⟩
          · rw [hfile] at hdir
            cases hdir
          · rw [hio₁] at hrest
            rw [(driverWrite_some hrest).2.2.2]
            exact settled_write hio₁
          · exact absurd hfile hne

end Settle

/-- When the writes of a flush agree, each of them is on disk afterwards. -/
theorem syncInode_settles {start dentry : Dentry} {ofs : ℕ} {content : List Byte}
    (hreached : Reached heap start dentry) (hflush : Flushes heap junk szIo dentry ofs content)
    (hagree : ∀ dentry' ofs' content', Reached heap start dentry' →
      Flushes heap junk szIo dentry' ofs' content' → Agree ofs content ofs' content')
    {fuel : ℕ} {disk disk' : Disk} (hszIo : disk.szIo = szIo)
    (h : syncInode heap junk fuel start disk = some disk') : Settled szIo ofs content disk' := by
  induction hreached generalizing fuel disk disk' with
  | refl start => exact syncInode_settles_self hagree hflush hszIo h
  | @child start sub dentry inode ptr hinode hdir hptr hsub hloaded hreached ih =>
      cases fuel with
      | zero => simp [syncInode] at h
      | succ fuel =>
          obtain ⟨inode', disk₁, hinode', hrecord, hrest⟩ := syncInode_succ h
          have hsame : inode' = inode := Option.some.inj (hinode'.symm.trans hinode)
          subst hsame
          have hio₁ : disk₁.szIo = szIo := by
            rw [(driverWrite_some hrecord).2.2.2]
            exact hszIo
          rcases hrest with ⟨-, hrest⟩ | ⟨hfile, -⟩ | ⟨hne, -⟩
          · obtain ⟨i, hi⟩ := List.getElem?_of_mem hptr
            apply syncDentrys_establishes _ hi hsub (writeDentry_keeps hagree hinode hdir)
              (syncChild_keeps hagree hinode hdir) _ _ hrest
            · intro sub d d' hsync
              exact (syncInode_geometry hsync).2
            · intro d₁ d₂ d₃ _ hio hwrite hrec
              rw [if_pos hloaded] at hrec
              have hio₂ : d₂.szIo = szIo := by
                rw [(driverWrite_some hwrite).2.2.2]
                exact hio.trans hio₁
              apply ih hflush _ hio₂ hrec
              intro dentry' ofs' content' hreached'
              exact hagree dentry' ofs' content'
                (Reached.child hinode hdir hptr hsub hloaded hreached')
          · rw [hdir] at hfile
            cases hfile
          · exact absurd hdir hne

end Rules

end OperateSystem.Newfs

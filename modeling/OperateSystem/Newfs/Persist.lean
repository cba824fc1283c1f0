import OperateSystem.Newfs.Mount

/-!
# What a flush leaves on the device

Each inode number stands for a directory or a regular file.  A number is stored when
its record, its entries or the size of its file are as that kind wants them, and the
entries lead to numbers of the kinds they name.  A flush keeps every stored number
stored, also while it is in the middle of a directory, and stores every inode that it
comes to.
-/

namespace OperateSystem.Newfs

open OperateSystem.ByteStore

/-- What the inode numbers stand for. -/
structure Kinds where
  kind : ℕ → Option FileType
  lt : ∀ ino ftype, kind ino = some ftype → ino < 3968
  plain : ∀ ino ftype, kind ino = some ftype → ftype = .dir ∨ ftype = .file

/-- The first `need` bytes of the data region of `ino` are in the region and on the
device. -/
structure Fits (ino : ℕ) (need : Int) : Prop where
  nonneg : 0 ≤ need
  region : need ≤ 8192
  device : need ≠ 0 → 130048 + 8192 * (ino : Int) + need ≤ 4194304

/-- Entry `i` of the directory names a number and its kind. -/
def EntryValid (kinds : Kinds) (bytes : ℕ → Byte) (ino i : ℕ) : Prop :=
  ∃ sub : ℕ, (diskEntry bytes ino i).ino = sub ∧
    kinds.kind sub = some (diskEntry bytes ino i).ftype

/-- The number is stored as one of kind `ftype`, with the entries that `Done` picks. -/
structure Stored (kinds : Kinds) (bytes : ℕ → Byte) (ino : ℕ) (ftype : FileType)
    (Done : ℕ → Prop) : Prop where
  ino_eq : (diskInode bytes ino).ino = ino
  dir : ftype = .dir → Fits ino (140 * (diskInode bytes ino).dirCnt)
  entries : ftype = .dir → ∀ i : ℕ, (i : Int) < (diskInode bytes ino).dirCnt → Done i →
    EntryValid kinds bytes ino i
  file : ftype = .file → 0 ≤ (diskInode bytes ino).size ∧
    Fits ino (roundUp (diskInode bytes ino).size 1024)

/-- Whatever is stored stays stored. -/
def Kept (kinds : Kinds) (bytes bytes' : ℕ → Byte) : Prop :=
  ∀ ino ftype Done, kinds.kind ino = some ftype → Stored kinds bytes ino ftype Done →
    Stored kinds bytes' ino ftype Done

/-- Whatever is stored under another number stays stored. -/
def KeptBut (kinds : Kinds) (ino : ℕ) (bytes bytes' : ℕ → Byte) : Prop :=
  ∀ other ftype Done, other ≠ ino → kinds.kind other = some ftype →
    Stored kinds bytes other ftype Done → Stored kinds bytes' other ftype Done

theorem Fits.mono {ino : ℕ} {need need' : Int} (h : Fits ino need) (hnonneg : 0 ≤ need')
    (hle : need' ≤ need) : Fits ino need' := by
  refine ⟨hnonneg, hle.trans h.region, ?_⟩
  intro hne
  have hdevice := h.device (by omega)
  omega

section Bytes

variable {kinds : Kinds} {bytes bytes' : ℕ → Byte} {ino : ℕ} {ftype : FileType}
  {Done : ℕ → Prop}

theorem diskInode_congr
    (hslot : ∀ addr, 3072 + 32 * ino ≤ addr → addr < 3072 + 32 * ino + 32 →
      bytes' addr = bytes addr) : diskInode bytes' ino = diskInode bytes ino := by
  rw [diskInode, diskInode, slice_congr hslot]

theorem diskEntry_congr {i : ℕ}
    (hentry : ∀ addr, 130048 + 8192 * ino + 140 * i ≤ addr →
      addr < 130048 + 8192 * ino + 140 * i + 140 → bytes' addr = bytes addr) :
    diskEntry bytes' ino i = diskEntry bytes ino i := by
  rw [diskEntry, diskEntry, slice_congr hentry]

/-- Being stored depends on the slot and the data region of the number. -/
theorem Stored.congr (h : Stored kinds bytes ino ftype Done)
    (hslot : ∀ addr, 3072 + 32 * ino ≤ addr → addr < 3072 + 32 * ino + 32 →
      bytes' addr = bytes addr)
    (hdata : ∀ addr, 130048 + 8192 * ino ≤ addr → addr < 130048 + 8192 * ino + 8192 →
      bytes' addr = bytes addr) : Stored kinds bytes' ino ftype Done := by
  have hinode := diskInode_congr hslot
  refine ⟨?_, ?_, ?_, ?_⟩
  · rw [hinode]
    exact h.ino_eq
  · rw [hinode]
    exact h.dir
  · rw [hinode]
    intro hdir i hi hdone
    have hregion := (h.dir hdir).region
    rw [EntryValid, diskEntry_congr fun addr hlo hhi => hdata addr (by omega) (by omega)]
    exact h.entries hdir i hi hdone
  · rw [hinode]
    exact h.file

theorem Stored.mono {Done' : ℕ → Prop} (h : Stored kinds bytes ino ftype Done)
    (hdone : ∀ i : ℕ, (i : Int) < (diskInode bytes ino).dirCnt → Done' i → Done i) :
    Stored kinds bytes ino ftype Done' :=
  ⟨h.ino_eq, h.dir, fun hdir i hi hi' => h.entries hdir i hi (hdone i hi hi'), h.file⟩

/-- More numbers may get a kind. -/
theorem Stored.mono_kinds {kinds' : Kinds} (h : Stored kinds bytes ino ftype Done)
    (hle : ∀ other t, kinds.kind other = some t → kinds'.kind other = some t) :
    Stored kinds' bytes ino ftype Done := by
  refine ⟨h.ino_eq, h.dir, ?_, h.file⟩
  intro hdir i hi hdone
  obtain ⟨sub, hsub, hkind⟩ := h.entries hdir i hi hdone
  exact ⟨sub, hsub, hle _ _ hkind⟩

theorem KeptBut.refl : KeptBut kinds ino bytes bytes := fun _ _ _ _ _ h => h

theorem KeptBut.trans {bytes'' : ℕ → Byte} (h : KeptBut kinds ino bytes bytes')
    (h' : KeptBut kinds ino bytes' bytes'') : KeptBut kinds ino bytes bytes'' :=
  fun other t Done hne hkind hstored =>
    h' other t Done hne hkind (h other t Done hne hkind hstored)

theorem Kept.but (h : Kept kinds bytes bytes') (ino : ℕ) : KeptBut kinds ino bytes bytes' :=
  fun other t Done _ hkind hstored => h other t Done hkind hstored

/-- A write in the slot or the data region of a number leaves all others alone. -/
theorem keptBut_overwrite (hino : ino < 3968) {ofs : ℕ} {content : List Byte}
    (hin : (3072 + 32 * ino ≤ ofs ∧ ofs + content.length ≤ 3072 + 32 * ino + 32) ∨
      (130048 + 8192 * ino ≤ ofs ∧ ofs + content.length ≤ 130048 + 8192 * ino + 8192)) :
    KeptBut kinds ino bytes (overwrite bytes ofs content) := by
  intro other t Done hne hkind hstored
  have hother := kinds.lt other t hkind
  refine hstored.congr ?_ ?_
  · intro addr hlo hhi
    rcases Nat.lt_or_ge addr ofs with hlt | hge
    · exact overwrite_of_lt _ _ _ hlt
    · exact overwrite_of_ge _ _ _ (by omega)
  · intro addr hlo hhi
    rcases Nat.lt_or_ge addr ofs with hlt | hge
    · exact overwrite_of_lt _ _ _ hlt
    · exact overwrite_of_ge _ _ _ (by omega)

/-- A write in the data region leaves the slots alone. -/
theorem diskInode_overwrite (hino : ino < 3968) {ofs : ℕ} (hofs : 130048 ≤ ofs)
    (content : List Byte) : diskInode (overwrite bytes ofs content) ino = diskInode bytes ino :=
  diskInode_congr fun _ _ hhi => overwrite_of_lt _ _ _ (by omega)

/-- The data of a file are written below its record. -/
theorem Stored.overwrite_data {Done : ℕ → Prop} (h : Stored kinds bytes ino .file Done)
    (hino : ino < 3968) {content : List Byte} (hlength : content.length ≤ 8192) :
    KeptBut kinds ino bytes (overwrite bytes (130048 + 8192 * ino) content) ∧
      Stored kinds (overwrite bytes (130048 + 8192 * ino) content) ino .file fun _ => True := by
  have hkeep : diskInode (overwrite bytes (130048 + 8192 * ino) content) ino
      = diskInode bytes ino := diskInode_overwrite hino (by omega) content
  refine ⟨keptBut_overwrite hino (Or.inr ⟨le_refl _, by omega⟩), ⟨?_, ?_, ?_, ?_⟩⟩
  · rw [hkeep]
    exact h.ino_eq
  · intro hdir
    cases hdir
  · intro hdir
    cases hdir
  · rw [hkeep]
    exact h.file

end Bytes

/-- An inode in memory is as its kind wants it. -/
structure Shape (ino : ℕ) (ftype : FileType) (inode : Inode) : Prop where
  ino_eq : inode.ino = ino
  dir : ftype = .dir → Fits ino (140 * (inode.dentrys.length : Int)) ∧
    0 ≤ inode.dirCnt ∧ inode.dirCnt ≤ inode.dentrys.length
  file : ftype = .file → 0 ≤ inode.size ∧ Fits ino (roundUp inode.size 1024) ∧
    inode.data.length = 8192

/-- The dentry names a number and its kind. -/
def Numbered (kinds : Kinds) (dentry : Dentry) : Prop :=
  dentry.fname.length = 128 ∧ ∃ ino : ℕ, dentry.ino = ino ∧ kinds.kind ino = some dentry.ftype

/-- The inodes in memory have the shape of their kind and their entries are numbered. -/
structure HeapTyped (kinds : Kinds) (heap : List Dentry) : Prop where
  shape : ∀ (ptr : DentryPtr) (dentry : Dentry) (inode : Inode), heap[ptr]? = some dentry →
    dentry.inode = some inode →
    ∃ ino, kinds.kind ino = some dentry.ftype ∧ Shape ino dentry.ftype inode
  numbered : ∀ (ptr : DentryPtr) (dentry : Dentry) (inode : Inode), heap[ptr]? = some dentry →
    dentry.inode = some inode → ∀ (sub : DentryPtr) (d : Dentry), sub ∈ inode.dentrys →
      heap[sub]? = some d → Numbered kinds d

section Records

variable {kinds : Kinds} {bytes : ℕ → Byte} {ino : ℕ} {ftype : FileType}

theorem ofInt_toInt_plain (hplain : ftype = .dir ∨ ftype = .file) :
    FileType.ofInt (toInt32 ftype.toInt) = ftype := by
  rcases hplain with rfl | rfl <;> decide

theorem toInt32_natCast {n : ℕ} (hlt : n < 3968) : toInt32 n = n :=
  toInt32_of_range (by omega) (by omega)

/-- Writing the record of a number stores the number, with the entries past its count. -/
theorem stored_record {inode : Inode} (hkind : kinds.kind ino = some ftype)
    (hshape : Shape ino ftype inode) (junk : Junk) (ofs : ℕ) :
    Stored kinds (overwrite bytes (3072 + 32 * ino)
      (InodeD.encode ⟨inode.ino, inode.size, ftype, inode.dirCnt⟩ junk ofs)) ino ftype
      fun k => inode.dentrys.length ≤ k := by
  have hlt := kinds.lt ino ftype hkind
  have hslice := slice_overwrite_self bytes (3072 + 32 * ino)
    (InodeD.encode ⟨inode.ino, inode.size, ftype, inode.dirCnt⟩ junk ofs)
  rw [InodeD.length_encode] at hslice
  have hrecord := InodeD.decode_encode ⟨inode.ino, inode.size, ftype, inode.dirCnt⟩ junk ofs
  rw [← hslice, ← diskInode] at hrecord
  have hcount : ftype = .dir → toInt32 inode.dirCnt = inode.dirCnt := by
    intro hdir
    obtain ⟨hfits, hlo, hhi⟩ := hshape.dir hdir
    have hregion := hfits.region
    exact toInt32_of_range (by omega) (by omega)
  refine ⟨?_, ?_, ?_, ?_⟩
  · rw [hrecord]
    simp only [hshape.ino_eq]
    exact toInt32_natCast hlt
  · intro hdir
    obtain ⟨hfits, hlo, hhi⟩ := hshape.dir hdir
    rw [hrecord]
    simp only [hcount hdir]
    exact hfits.mono (by omega) (by omega)
  · intro hdir i hi hlast
    obtain ⟨-, -, hhi⟩ := hshape.dir hdir
    rw [hrecord] at hi
    simp only [hcount hdir] at hi
    omega
  · intro hfile
    obtain ⟨hlo, hfits, -⟩ := hshape.file hfile
    have hregion := hfits.region
    have hup := (roundUp_spec hlo (show (0 : Int) < 1024 by decide)).2.1
    rw [hrecord]
    simp only
    rw [toInt32_of_range (by omega) (by omega)]
    exact ⟨hlo, hfits⟩

/-- Writing entry `i` of a directory stores this entry and leaves the others. -/
theorem stored_entry {Done : ℕ → Prop} (hkind : kinds.kind ino = some .dir)
    (hstored : Stored kinds bytes ino .dir Done) {sub : Dentry} (hsub : Numbered kinds sub)
    (junk : Junk) (i ofs : ℕ) :
    Stored kinds (overwrite bytes (130048 + 8192 * ino + 140 * i)
      ((DentryD.encode ⟨sub.fname, sub.ftype, sub.ino⟩ junk ofs).take 140)) ino .dir
      fun k => Done k ∨ k = i := by
  obtain ⟨hname, m, hm, hmkind⟩ := hsub
  have hlt := kinds.lt ino .dir hkind
  have hlength := DentryD.length_encode ⟨sub.fname, sub.ftype, sub.ino⟩ junk ofs hname
  rw [List.take_of_length_le hlength.le]
  have hinode := @diskInode_overwrite bytes ino hlt (130048 + 8192 * ino + 140 * i) (by omega)
    (DentryD.encode ⟨sub.fname, sub.ftype, sub.ino⟩ junk ofs)
  refine ⟨by rw [hinode]; exact hstored.ino_eq, by rw [hinode]; exact hstored.dir, ?_, by simp⟩
  rw [hinode]
  intro hdir k hk hdone
  by_cases heq : k = i
  · subst heq
    have hslice := slice_overwrite_self bytes (130048 + 8192 * ino + 140 * k)
      (DentryD.encode ⟨sub.fname, sub.ftype, sub.ino⟩ junk ofs)
    rw [hlength] at hslice
    have hrecord := DentryD.decode_encode ⟨sub.fname, sub.ftype, sub.ino⟩ junk ofs hname
    rw [← hslice, ← diskEntry] at hrecord
    refine ⟨m, ?_, ?_⟩
    · rw [hrecord]
      simp only [hm]
      exact toInt32_natCast (kinds.lt m _ hmkind)
    · rw [hrecord, hmkind]
      exact congrArg some (ofInt_toInt_plain (kinds.plain m _ hmkind)).symm
  · have hold : Done k := hdone.resolve_right heq
    rw [EntryValid, @diskEntry_congr bytes]
    · exact hstored.entries hdir k hk hold
    · intro addr hlo hhi
      rcases Nat.lt_or_ge addr (130048 + 8192 * ino + 140 * i) with hbefore | hafter
      · exact overwrite_of_lt _ _ _ hbefore
      · refine overwrite_of_ge _ _ _ ?_
        rw [hlength]
        omega

end Records

section Flush

variable {kinds : Kinds} {heap : List Dentry} {junk : Junk}

theorem writeDentry_bytes {ino i : ℕ} {sub : Dentry} {disk disk' : Disk}
    (h : writeDentry junk disk (daOfs ino + i * sizeofDentryD) sub = some disk') :
    ∃ ofs, disk'.bytes = overwrite disk.bytes (130048 + 8192 * ino + 140 * i)
      ((DentryD.encode ⟨sub.fname, sub.ftype, sub.ino⟩ junk ofs).take 140) := by
  obtain ⟨-, -, -, rfl⟩ := driverWrite_some h
  have hofs : (daOfs ino + i * sizeofDentryD).toNat = 130048 + 8192 * ino + 140 * i := by
    simp only [daOfs, dataOfs, dataPerFile, dataSize, sizeofDentryD]
    omega
  refine ⟨(daOfs ino + i * sizeofDentryD).toNat, ?_⟩
  simp only [hofs]
  rfl

section Loop

variable {sync : Dentry → Disk → Option Disk} {ino : ℕ} {Rest : ℕ → Prop}
  (hkind : kinds.kind ino = some .dir)

include hkind

/-- One turn of the loop over the entries: the entry is stored, and what was stored stays
so. -/
theorem turn_stored {j : ℕ} {sub : Dentry} {disk disk₁ disk₂ : Disk}
    (hfits : 140 * (j + 1) ≤ 8192) (hsub : Numbered kinds sub)
    (hsync : ∀ d d', sub.inode.isSome → sync sub d = some d' → Kept kinds d.bytes d'.bytes)
    (hstart : Stored kinds disk.bytes ino .dir fun k => k < j ∨ Rest k)
    (hwrite : writeDentry junk disk (daOfs ino + j * sizeofDentryD) sub = some disk₁)
    (hrec : (if sub.inode.isSome then sync sub disk₁ else some disk₁) = some disk₂) :
    KeptBut kinds ino disk.bytes disk₂.bytes ∧
      Stored kinds disk₂.bytes ino .dir fun k => k < j + 1 ∨ Rest k := by
  obtain ⟨ofs, hbytes⟩ := writeDentry_bytes hwrite
  have hentry := stored_entry hkind hstart hsub junk j ofs
  have hbut := @keptBut_overwrite kinds disk.bytes ino (kinds.lt ino _ hkind)
    (130048 + 8192 * ino + 140 * j)
    ((DentryD.encode ⟨sub.fname, sub.ftype, sub.ino⟩ junk ofs).take 140) (Or.inr ⟨by omega, by
      have hle := List.length_take_le 140
        (DentryD.encode ⟨sub.fname, sub.ftype, sub.ino⟩ junk ofs)
      omega⟩)
  rw [← hbytes] at hentry hbut
  have hnext : Stored kinds disk₁.bytes ino .dir fun k => k < j + 1 ∨ Rest k := by
    refine hentry.mono fun k _ hk => ?_
    rcases hk with hk | hk
    · rcases Nat.lt_succ_iff_lt_or_eq.mp hk with hlt | heq
      · exact Or.inl (Or.inl hlt)
      · exact Or.inr heq
    · exact Or.inl (Or.inr hk)
  split at hrec
  · rename_i hloaded
    have hkept := hsync disk₁ disk₂ hloaded hrec
    exact ⟨hbut.trans (hkept.but ino), hkept ino .dir _ hkind hnext⟩
  · cases hrec
    exact ⟨hbut, hnext⟩

/-- The loop stores every entry, and what a recursive call has stored stays so. -/
theorem syncDentrys_stored {ptrs : List DentryPtr} {j : ℕ} {disk disk' : Disk}
    (hfits : 140 * (j + ptrs.length) ≤ 8192)
    (hsub : ∀ ptr ∈ ptrs, ∀ sub, heap[ptr]? = some sub → Numbered kinds sub)
    (hsync : ∀ ptr ∈ ptrs, ∀ sub, heap[ptr]? = some sub → ∀ d d', sub.inode.isSome →
      sync sub d = some d' → Kept kinds d.bytes d'.bytes)
    (hstart : Stored kinds disk.bytes ino .dir fun k => k < j ∨ Rest k)
    (h : syncDentrys heap junk sync ptrs (daOfs ino + j * sizeofDentryD) disk = some disk') :
    KeptBut kinds ino disk.bytes disk'.bytes ∧
      Stored kinds disk'.bytes ino .dir (fun k => k < j + ptrs.length ∨ Rest k) ∧
      ∀ ptr ∈ ptrs, ∀ sub, heap[ptr]? = some sub → sub.inode.isSome →
        ∀ other t Done, other ≠ ino → kinds.kind other = some t →
          (∀ d d', sync sub d = some d' → Stored kinds d'.bytes other t Done) →
          Stored kinds disk'.bytes other t Done := by
  induction ptrs generalizing j disk with
  | nil =>
      cases h
      exact ⟨KeptBut.refl, hstart, by simp⟩
  | cons ptr ptrs ih =>
      obtain ⟨sub, disk₁, disk₂, hptr, hwrite, hrec, hrest⟩ := syncDentrys_cons h
      rw [List.length_cons] at hfits
      obtain ⟨hbut, hnext⟩ := turn_stored hkind (by omega)
        (hsub ptr List.mem_cons_self sub hptr) (hsync ptr List.mem_cons_self sub hptr) hstart
        hwrite hrec
      have hshift : daOfs ino + j * sizeofDentryD + sizeofDentryD
          = daOfs ino + ((j + 1 : ℕ) : Int) * sizeofDentryD := by
        push_cast
        rw [Int.add_mul]
        omega
      rw [hshift] at hrest
      obtain ⟨hbut', hstored, hbelow⟩ := ih (by omega)
        (fun p hp => hsub p (List.mem_cons_of_mem _ hp))
        (fun p hp => hsync p (List.mem_cons_of_mem _ hp)) hnext hrest
      have hcount : j + 1 + ptrs.length = j + (ptr :: ptrs).length := by
        rw [List.length_cons]
        omega
      rw [hcount] at hstored
      refine ⟨hbut.trans hbut', hstored, ?_⟩
      intro p hp d hd hloaded other t Done hne hother hestablish
      rcases List.mem_cons.mp hp with rfl | hmem
      · rw [hptr] at hd
        cases hd
        rw [if_pos hloaded] at hrec
        exact hbut' other t Done hne hother (hestablish disk₁ disk₂ hrec)
      · exact hbelow p hmem d hd hloaded other t Done hne hother hestablish

end Loop

/-- The inode of the dentry is on the device with all its entries. -/
def Flushed (kinds : Kinds) (bytes : ℕ → Byte) (dentry : Dentry) : Prop :=
  ∀ inode ino, dentry.inode = some inode → inode.ino = (ino : ℕ) →
    kinds.kind ino = some dentry.ftype → Stored kinds bytes ino dentry.ftype fun _ => True

theorem Reached.tail {start parent sub : Dentry} {inode : Inode} {ptr : DentryPtr}
    (h : Reached heap start parent) (hinode : parent.inode = some inode)
    (hdir : parent.ftype = .dir) (hptr : ptr ∈ inode.dentrys) (hsub : heap[ptr]? = some sub)
    (hloaded : sub.inode.isSome) : Reached heap start sub := by
  induction h with
  | refl => exact .child hinode hdir hptr hsub hloaded (.refl sub)
  | child hinode' hdir' hptr' hsub' hloaded' _ ih =>
      exact .child hinode' hdir' hptr' hsub' hloaded' (ih hinode hdir)

/-- What is below a dentry has been flushed when its own inode is stored and what is below
its entries has been flushed. -/
theorem flushed_reached {bytes : ℕ → Byte} {dentry d : Dentry} {inode : Inode} {ino : ℕ}
    (hinode : dentry.inode = some inode) (hino : inode.ino = ino)
    (hself : Stored kinds bytes ino dentry.ftype fun _ => True)
    (hbelow : ∀ sub ∈ inode.dentrys, ∀ d, dentry.ftype = .dir → heap[sub]? = some d →
      d.inode.isSome → ∀ d', Reached heap d d' → Flushed kinds bytes d')
    (hreached : Reached heap dentry d) : Flushed kinds bytes d := by
  cases hreached with
  | refl =>
      intro inode' ino' hinode' hino' _
      rw [hinode] at hinode'
      cases hinode'
      obtain rfl : ino = ino' := Int.natCast_inj.mp (hino.symm.trans hino')
      exact hself
  | @child _ sub _ inode' sub' hinode' hdir hmem hsub hloaded hbelow' =>
      rw [hinode] at hinode'
      cases hinode'
      exact hbelow sub' hmem sub hdir hsub hloaded d hbelow'

/-- A flush keeps what is stored and stores every inode that it comes to. -/
theorem syncInode_stored (hheap : HeapTyped kinds heap) {fuel : ℕ} {ptr : DentryPtr}
    {dentry : Dentry} (hptr : heap[ptr]? = some dentry) {disk disk' : Disk}
    (h : syncInode heap junk fuel dentry disk = some disk') :
    Kept kinds disk.bytes disk'.bytes ∧
      ∀ d, Reached heap dentry d → Flushed kinds disk'.bytes d := by
  induction fuel generalizing ptr dentry disk disk' with
  | zero => cases h
  | succ fuel ih =>
      obtain ⟨inode, disk₁, hinode, hrecord, hrest⟩ := syncInode_succ h
      obtain ⟨ino, hkind, hshape⟩ := hheap.shape ptr dentry inode hptr hinode
      have hlt := kinds.lt ino _ hkind
      have hofs : (inoOfs inode.ino).toNat = 3072 + 32 * ino := by
        simp only [hshape.ino_eq, inoOfs, inodeOfs, inodeSize]
        omega
      obtain ⟨hslot, hbut⟩ : Stored kinds disk₁.bytes ino dentry.ftype
          (fun k => inode.dentrys.length ≤ k) ∧ KeptBut kinds ino disk.bytes disk₁.bytes := by
        obtain ⟨-, -, -, rfl⟩ := driverWrite_some hrecord
        rw [List.take_of_length_le (by simp [sizeofInodeD])]
        simp only [hofs]
        exact ⟨stored_record hkind hshape junk _, keptBut_overwrite hlt (Or.inl (by simp))⟩
      -- It is enough to store this inode, keep the others and flush what lies below.
      suffices hgoal : KeptBut kinds ino disk₁.bytes disk'.bytes ∧
          Stored kinds disk'.bytes ino dentry.ftype (fun _ => True) ∧
          ∀ sub ∈ inode.dentrys, ∀ d, dentry.ftype = .dir → heap[sub]? = some d →
            d.inode.isSome → ∀ d', Reached heap d d' → Flushed kinds disk'.bytes d' by
        obtain ⟨hbut', hself, hbelow⟩ := hgoal
        refine ⟨?_, ?_⟩
        · intro other t Done hother hstored
          by_cases heq : other = ino
          · subst heq
            rw [hkind] at hother
            cases hother
            exact hself.mono fun _ _ _ => trivial
          · exact (hbut.trans hbut') other t Done heq hother hstored
        · exact fun d hreached => flushed_reached hinode hshape.ino_eq hself hbelow hreached
      rcases hrest with ⟨hdir, hrest⟩ | ⟨hfile, hrest⟩ | ⟨hdir, hfile, rfl⟩
      · obtain ⟨hfits, -, -⟩ := hshape.dir hdir
        have hregion := hfits.region
        have hfirst : daOfs inode.ino = daOfs ino + ((0 : ℕ) : Int) * sizeofDentryD := by
          rw [hshape.ino_eq]
          simp
        rw [hdir] at hkind hslot ⊢
        rw [hfirst] at hrest
        obtain ⟨hbut', hstored, hbelow⟩ := syncDentrys_stored hkind (by omega)
          (fun sub hmem d hd => hheap.numbered ptr dentry inode hptr hinode sub d hmem hd)
          (fun sub hmem d hd d₁ d₂ hloaded hsync => (ih hd hsync).1)
          (hslot.mono fun k _ hk => hk.resolve_left (Nat.not_lt_zero k)) hrest
        have hself : Stored kinds disk'.bytes ino .dir fun _ => True := by
          refine hstored.mono fun k _ _ => ?_
          rw [Nat.zero_add]
          exact Nat.lt_or_ge k inode.dentrys.length
        refine ⟨hbut', hself, ?_⟩
        intro sub hmem d _ hd hloaded d' hreached inode' m hinode' hm hmkind
        by_cases heq : m = ino
        · subst heq
          rw [← Option.some.inj (hkind.symm.trans hmkind)]
          exact hself
        · exact hbelow sub hmem d hd hloaded m _ _ heq hmkind fun d₁ d₂ hsync =>
            (ih hd hsync).2 d' hreached inode' m hinode' hm hmkind
      · obtain ⟨-, -, hlength⟩ := hshape.file hfile
        have hdata : (daOfs inode.ino).toNat = 130048 + 8192 * ino := by
          simp only [hshape.ino_eq, daOfs, dataOfs, dataPerFile, dataSize]
          omega
        obtain ⟨-, -, -, rfl⟩ := driverWrite_some hrest
        simp only [hdata]
        rw [hfile] at hslot ⊢
        obtain ⟨hbut', hself⟩ := hslot.overwrite_data hlt
          (show (inode.data.take (roundUp inode.size (blksSz disk₁.szIo)).toNat).length ≤ 8192 by
            rw [List.length_take]
            omega)
        exact ⟨hbut', hself, fun _ _ _ hdir => by cases hdir⟩
      · exact ((kinds.plain ino _ hkind).elim hdir hfile).elim

end Flush

end OperateSystem.Newfs

import OperateSystem.Newfs.Limits
import OperateSystem.Newfs.Persist

/-!
# Memory and device with the kinds of their numbers

`Charted old kinds` ties memory to the device: `old` gives the kinds of the numbers
that the device stores, `kinds` those of all numbers in use.  A dentry without inode
has a number that is stored, so loading finds what its kind wants; every inode in
memory is reached from the root, so unmounting stores it.
-/

namespace OperateSystem.Newfs

open OperateSystem.Bitmap
open OperateSystem.ByteStore

/-- What ties the dentries in memory to the kinds of the numbers. -/
structure Charted (old kinds : Kinds) (fs : Fs) : Prop where
  mounted : Mounted fs
  old_le : ∀ ino ftype, old.kind ino = some ftype → kinds.kind ino = some ftype
  bits : ∀ ino ftype, kinds.kind ino = some ftype → bit fs.super.mapInode ino = true
  stored : ∀ ino ftype, old.kind ino = some ftype →
    Stored old fs.disk.bytes ino ftype fun _ => True
  fresh : ∀ ino ftype, kinds.kind ino = some ftype → old.kind ino = some ftype ∨
    ∃ (ptr : DentryPtr) (dentry : Dentry) (inode : Inode), fs.heap[ptr]? = some dentry ∧
      dentry.inode = some inode ∧ inode.ino = ino
  shape : Each (fun ftype inode => ∃ ino, kinds.kind ino = some ftype ∧ Shape ino ftype inode) fs
  numbered : ∀ (ptr : DentryPtr) (dentry : Dentry), ptr ≠ 0 → fs.heap[ptr]? = some dentry →
    Numbered kinds dentry
  unloaded : ∀ (ptr : DentryPtr) (dentry : Dentry), fs.heap[ptr]? = some dentry →
    dentry.inode = none → Numbered old dentry
  entry_dir : ∀ ptr sub, Entry fs.heap ptr sub → ∃ dentry, fs.heap[ptr]? = some dentry ∧
    dentry.ftype = .dir
  entry_lt : ∀ ptr sub : ℕ, Entry fs.heap ptr sub → ptr < sub ∧ sub < fs.heap.length
  reached : ∀ sub : ℕ, sub ≠ 0 → sub < fs.heap.length → ∃ ptr, Entry fs.heap ptr sub

section Loading

variable {fs fs' : Fs} {ino i : Int} {count : ℕ} {inode inode' : Inode}

theorem allocDentry_dirCnt (blks : Int) (super : Super) (inode : Inode) (ptr : DentryPtr) :
    inode.dirCnt ≤ (allocDentry blks super inode ptr).2.1.dirCnt ∧
      (allocDentry blks super inode ptr).2.1.dirCnt ≤ inode.dirCnt + 1 := by
  rw [allocDentry]
  cases hscan : (if needsDataBlock inode.size blks then claimBit super.mapData 0 else none) with
  | none => exact ⟨le_refl _, by simp⟩
  | some claim =>
      by_cases hlimit : (claim.1 : Int) = super.maxData <;> simp [hlimit]

/-- The loop that loads entries links one new dentry for each of them, the last in
front. -/
theorem readDentrys_links (h : readDentrys ino count i fs inode = some (fs', inode')) :
    inode'.dentrys = (List.range' fs.heap.length count).reverse ++ inode.dentrys ∧
      inode.dirCnt ≤ inode'.dirCnt ∧ inode'.dirCnt ≤ inode.dirCnt + count ∧
      fs'.super.mapInode = fs.super.mapInode := by
  induction count generalizing i fs inode with
  | zero =>
      cases h
      simp
  | succ count ih =>
      obtain ⟨bytes, sub, -, -, hrest⟩ := readDentrys_succ h
      obtain ⟨hdentrys, hlo, hhi, hmap⟩ := ih hrest
      have hfront := allocDentry_dentrys (blksSz fs.disk.szIo) fs.super inode fs.heap.length
      obtain ⟨hlo', hhi'⟩ :=
        allocDentry_dirCnt (blksSz fs.disk.szIo) fs.super inode fs.heap.length
      refine ⟨?_, hlo'.trans hlo, by push_cast; omega, hmap.trans (allocDentry_mapInode _ _ _ _)⟩
      rw [hdentrys, hfront, List.range'_succ, List.reverse_cons, List.append_assoc,
        List.length_append, List.length_singleton]
      rfl

/-- The dentries it adds are those of the entries on the device. -/
theorem readDentrys_entries {ino : ℕ} {start : ℕ}
    (h : readDentrys ino count start fs inode = some (fs', inode')) :
    ∃ more, fs'.heap = fs.heap ++ more ∧ more.length = count ∧ ∀ k d, more[k]? = some d →
      d.inode = none ∧ d.fname.length = 128 ∧
        d.name = cstr (diskEntry fs.disk.bytes ino (start + k)).fname ∧
        d.ftype = (diskEntry fs.disk.bytes ino (start + k)).ftype ∧
        d.ino = (diskEntry fs.disk.bytes ino (start + k)).ino := by
  induction count generalizing start fs inode with
  | zero =>
      cases h
      exact ⟨[], by simp, rfl, by simp⟩
  | succ count ih =>
      obtain ⟨bytes, sub, hread, hsub, hrest⟩ := readDentrys_succ h
      have hnext : ((start : Int) + 1) = ((start + 1 : ℕ) : Int) := by push_cast; rfl
      rw [hnext] at hrest
      obtain ⟨more, hmore, hlength, hall⟩ := ih hrest
      have hentry : DentryD.decode bytes = diskEntry fs.disk.bytes ino start := by
        have hofs : (daOfs ino + start * sizeofDentryD).toNat
            = 130048 + 8192 * ino + 140 * start := by
          simp only [daOfs, dataOfs, dataPerFile, dataSize, sizeofDentryD]
          omega
        rw [(driverRead_some hread).2.2, hofs]
        rfl
      obtain ⟨hname, rfl⟩ := newDentry_some hsub
      refine ⟨_ :: more, by rw [hmore, List.append_assoc]; rfl, by rw [List.length_cons, hlength],
        ?_⟩
      intro k d hd
      cases k with
      | zero =>
          cases hd
          refine ⟨rfl, ?_, ?_, by simp [hentry], by simp [hentry]⟩
          · simp only [List.length_append, List.length_replicate]
            simp only [maxFileName] at hname ⊢
            omega
          · rw [hentry, Nat.add_zero]
            exact cstr_padded (zero_notMem_cstr _) _
      | succ k =>
          have hshift : start + (k + 1) = start + 1 + k := by omega
          rw [hshift]
          exact hall k d hd

end Loading

theorem Numbered.mono {kinds kinds' : Kinds} {dentry : Dentry} (h : Numbered kinds dentry)
    (hle : ∀ ino ftype, kinds.kind ino = some ftype → kinds'.kind ino = some ftype) :
    Numbered kinds' dentry := by
  obtain ⟨hname, ino, hino, hkind⟩ := h
  exact ⟨hname, ino, hino, hle ino _ hkind⟩

/-- A dentry that joins the others can be loaded or has an inode without entries. -/
structure Joins (old kinds : Kinds) (dentry : Dentry) : Prop where
  numbered : Numbered kinds dentry
  unloaded : dentry.inode = none → Numbered old dentry
  loaded : ∀ inode, dentry.inode = some inode → inode.dentrys = [] ∧
    ∃ ino, kinds.kind ino = some dentry.ftype ∧ Shape ino dentry.ftype inode

section Extending

variable {old kinds kinds' : Kinds} {fs fs' : Fs} {ptr : ℕ} {dentry : Dentry} {inode : Inode}
  {more : List Dentry}

/-- A dentry of the extended arena is the changed one, an old one or a new one at the end. -/
theorem extended_index
    (hheap : fs'.heap = fs.heap.set ptr { dentry with inode := some inode } ++ more)
    {other : ℕ} {d : Dentry} (hother : fs'.heap[other]? = some d) :
    (other = ptr ∧ d = { dentry with inode := some inode }) ∨
      (other ≠ ptr ∧ fs.heap[other]? = some d) ∨
        ∃ k, other = fs.heap.length + k ∧ more[k]? = some d := by
  rw [hheap] at hother
  by_cases hlt : other < fs.heap.length
  · rw [List.getElem?_append_left (by simpa using hlt), List.getElem?_set] at hother
    by_cases heq : ptr = other
    · subst heq
      rw [if_pos rfl, if_pos hlt] at hother
      exact Or.inl ⟨rfl, (Option.some.inj hother).symm⟩
    · rw [if_neg heq] at hother
      exact Or.inr (Or.inl ⟨fun h => heq h.symm, hother⟩)
  · rw [List.getElem?_append_right (by simpa using hlt), List.length_set] at hother
    exact Or.inr (Or.inr ⟨other - fs.heap.length, by omega, hother⟩)

theorem extended_cases
    (hheap : fs'.heap = fs.heap.set ptr { dentry with inode := some inode } ++ more)
    {other : ℕ} {d : Dentry} (hother : fs'.heap[other]? = some d) :
    (other = ptr ∧ d = { dentry with inode := some inode }) ∨
      (other ≠ ptr ∧ fs.heap[other]? = some d) ∨ d ∈ more :=
  (extended_index hheap hother).imp_right
    (Or.imp_right fun ⟨_, _, hk⟩ => List.mem_of_getElem? hk)

/-- Changing one inode, which may get the new dentries as entries, and adding dentries. -/
theorem Charted.extend (h : Charted old kinds fs) (hptr : fs.heap[ptr]? = some dentry)
    (hheap : fs'.heap = fs.heap.set ptr { dentry with inode := some inode } ++ more)
    (hmounted : Mounted fs') (hdisk : fs'.disk = fs.disk)
    (hle : ∀ ino t, kinds.kind ino = some t → kinds'.kind ino = some t)
    (hbits : ∀ ino t, kinds'.kind ino = some t → bit fs'.super.mapInode ino = true)
    (hfresh : ∀ ino t, kinds'.kind ino = some t → kinds.kind ino = some t ∨
      ∃ d ∈ more, ∃ i, d.inode = some i ∧ i.ino = ino)
    (hino : ∀ i, dentry.inode = some i → inode.ino = i.ino)
    (hshape : ∃ ino, kinds'.kind ino = some dentry.ftype ∧ Shape ino dentry.ftype inode)
    (hentries : ∀ sub : ℕ, sub ∈ inode.dentrys ↔ Entry fs.heap ptr sub ∨
      (fs.heap.length ≤ sub ∧ sub < fs.heap.length + more.length))
    (hdir : inode.dentrys ≠ [] → dentry.ftype = .dir)
    (hmore : ∀ d ∈ more, Joins old kinds' d) : Charted old kinds' fs' := by
  have hlt : ptr < fs.heap.length := (List.getElem?_eq_some_iff.mp hptr).1
  have hself : fs'.heap[ptr]? = some { dentry with inode := some inode } := by
    rw [hheap, List.getElem?_append_left (by simpa using hlt), List.getElem?_set_self hlt]
  have hkeep : ∀ (other : ℕ) (d : Dentry), other ≠ ptr → fs.heap[other]? = some d →
      fs'.heap[other]? = some d := by
    intro other d hne hother
    have hlt' : other < fs.heap.length := (List.getElem?_eq_some_iff.mp hother).1
    rw [hheap, List.getElem?_append_left (by simpa using hlt'),
      List.getElem?_set_ne (fun heq => hne heq.symm), hother]
  have hentry : ∀ other sub : ℕ, Entry fs'.heap other sub → Entry fs.heap other sub ∨
      (other = ptr ∧ fs.heap.length ≤ sub ∧ sub < fs.heap.length + more.length) := by
    rintro other sub ⟨d, i, hother, hi, hsub⟩
    rcases extended_cases hheap hother with ⟨rfl, rfl⟩ | ⟨hne, hold⟩ | hmem
    · cases hi
      exact ((hentries sub).mp hsub).imp_right fun hrange => ⟨rfl, hrange⟩
    · exact Or.inl ⟨d, i, hold, hi, hsub⟩
    · rw [((hmore d hmem).loaded i hi).1] at hsub
      cases hsub
  have hentry' : ∀ other sub : ℕ, Entry fs.heap other sub → Entry fs'.heap other sub := by
    rintro other sub hold
    by_cases heq : other = ptr
    · subst heq
      exact ⟨_, inode, hself, rfl, (hentries sub).mpr (Or.inl hold)⟩
    · obtain ⟨d, i, hother, hi, hsub⟩ := hold
      exact ⟨d, i, hkeep other d heq hother, hi, hsub⟩
  have hlength : fs'.heap.length = fs.heap.length + more.length := by
    rw [hheap, List.length_append, List.length_set]
  refine ⟨hmounted, fun ino t hkind => hle ino t (h.old_le ino t hkind), hbits,
    by rw [hdisk]; exact h.stored, ?_, ?_, ?_, ?_, ?_, ?_, ?_⟩
  · intro ino t hkind
    rcases hfresh ino t hkind with hold | ⟨d, hmem, i, hi, hnum⟩
    · rcases h.fresh ino t hold with hstored | ⟨other, d, i, hother, hi, hnum⟩
      · exact Or.inl hstored
      · by_cases heq : other = ptr
        · subst heq
          rw [hptr] at hother
          cases hother
          exact Or.inr ⟨other, _, inode, hself, rfl, (hino i hi).trans hnum⟩
        · exact Or.inr ⟨other, d, i, hkeep other d heq hother, hi, hnum⟩
    · obtain ⟨k, hk⟩ := List.mem_iff_getElem?.mp hmem
      refine Or.inr ⟨fs.heap.length + k, d, i, ?_, hi, hnum⟩
      rw [hheap, List.getElem?_append_right (by simp)]
      simpa using hk
  · intro other d i hother hi
    rcases extended_cases hheap hother with ⟨rfl, rfl⟩ | ⟨hne, hold⟩ | hmem
    · cases hi
      exact hshape
    · obtain ⟨ino, hkind, hshape'⟩ := h.shape other d i hold hi
      exact ⟨ino, hle ino _ hkind, hshape'⟩
    · exact ((hmore d hmem).loaded i hi).2
  · intro other d hne hother
    rcases extended_cases hheap hother with ⟨rfl, rfl⟩ | ⟨-, hold⟩ | hmem
    · exact (h.numbered other dentry hne hptr).mono hle
    · exact (h.numbered other d hne hold).mono hle
    · exact (hmore d hmem).numbered
  · intro other d hother hnull
    rcases extended_cases hheap hother with ⟨rfl, rfl⟩ | ⟨-, hold⟩ | hmem
    · cases hnull
    · exact h.unloaded other d hold hnull
    · exact (hmore d hmem).unloaded hnull
  · intro other sub hsub
    by_cases heq : other = ptr
    · subst heq
      refine ⟨_, hself, hdir ?_⟩
      obtain ⟨d, i, hother, hi, hmem⟩ := hsub
      rw [hself] at hother
      cases hother
      cases hi
      exact List.ne_nil_of_mem hmem
    · rcases hentry other sub hsub with hold | ⟨rfl, -⟩
      · obtain ⟨d, hother, hdir'⟩ := h.entry_dir other sub hold
        exact ⟨d, hkeep other d heq hother, hdir'⟩
      · exact absurd rfl heq
  · intro other sub hsub
    rw [hlength]
    rcases hentry other sub hsub with hold | ⟨rfl, hlo, hhi⟩
    · obtain ⟨hbefore, hin⟩ := h.entry_lt other sub hold
      exact ⟨hbefore, by omega⟩
    · exact ⟨by omega, hhi⟩
  · intro sub hne hin
    by_cases hold : sub < fs.heap.length
    · obtain ⟨parent, hparent⟩ := h.reached sub hne hold
      exact ⟨parent, hentry' parent sub hparent⟩
    · exact ⟨ptr, _, inode, hself, rfl, (hentries sub).mpr (Or.inr ⟨by omega, by omega⟩)⟩

end Extending

section Effects

variable {old kinds : Kinds} {fs fs' : Fs}

/-- Loading a number that is stored gives an inode of the shape that its kind wants. -/
theorem readInode_stored {ino : ℕ} {ftype : FileType} {inode : Inode}
    (hdisk : Geometry fs.disk) (hkind : kinds.kind ino = some ftype)
    (hstored : Stored kinds fs.disk.bytes ino ftype fun _ => True)
    (h : readInode fs ftype ino = some (fs', inode)) :
    Shape ino ftype inode ∧ (inode.dentrys ≠ [] → ftype = .dir) ∧
      fs'.super.mapInode = fs.super.mapInode ∧
      ∃ more, fs'.heap = fs.heap ++ more ∧ (∀ d ∈ more, d.inode = none ∧ Numbered kinds d) ∧
        ∀ sub : ℕ, sub ∈ inode.dentrys ↔
          fs.heap.length ≤ sub ∧ sub < fs.heap.length + more.length := by
  obtain ⟨bytes, hrecord, hcases⟩ := readInode_some h
  have hdecode : InodeD.decode bytes = diskInode fs.disk.bytes ino := by
    have hofs : (inoOfs ino).toNat = 3072 + 32 * ino := by
      simp only [inoOfs, inodeOfs, inodeSize]
      omega
    rw [(driverRead_some hrecord).2.2, hofs]
    rfl
  rw [hdecode] at hcases
  rcases hcases with ⟨rfl, hrest⟩ | ⟨rfl, rfl, data, hdata, rfl⟩ | ⟨hdir, hfile, -, -⟩
  · have hfits := hstored.dir rfl
    have hnonneg := hfits.nonneg
    obtain ⟨-, -, -, hino⟩ := readDentrys_grows hrest
    obtain ⟨hdentrys, hlo, hhi, hmap⟩ := readDentrys_links hrest
    have hstart : readDentrys ino (diskInode fs.disk.bytes ino).dirCnt.toNat ((0 : ℕ) : Int) fs
        ⟨(diskInode fs.disk.bytes ino).ino, (diskInode fs.disk.bytes ino).size, 0, [], []⟩
        = some (fs', inode) := by
      rw [Nat.cast_zero]
      exact hrest
    obtain ⟨more, hmore, hcount, hall⟩ := readDentrys_entries hstart
    simp only [List.append_nil, Int.zero_add] at hdentrys hlo hhi
    simp only [hstored.ino_eq] at hino
    have hlength : inode.dentrys.length = (diskInode fs.disk.bytes ino).dirCnt.toNat := by
      rw [hdentrys, List.length_reverse, List.length_range']
    refine ⟨⟨hino, fun _ => ⟨?_, hlo, ?_⟩, by simp⟩, fun _ => rfl, hmap, more,
      hmore, ?_, ?_⟩
    · rw [hlength, Int.toNat_of_nonneg (by omega)]
      exact hfits
    · rw [hlength]
      omega
    · intro d hd
      obtain ⟨k, hk⟩ := List.mem_iff_getElem?.mp hd
      obtain ⟨hnull, hname, -, hdtype, hdino⟩ := hall k d hk
      have hlt := (List.getElem?_eq_some_iff.mp hk).1
      obtain ⟨m, hm, hmkind⟩ := hstored.entries rfl (0 + k) (by omega) trivial
      exact ⟨hnull, hname, m, hdino.trans hm, by rw [hdtype]; exact hmkind⟩
    · intro sub
      rw [hdentrys, List.mem_reverse, List.mem_range'_1, hcount]
  · refine ⟨⟨by simp only [hstored.ino_eq], by simp, ?_⟩, by simp, rfl, [], by simp, by simp,
      by simp⟩
    intro _
    obtain ⟨hsize, hfits⟩ := hstored.file rfl
    simp only
    refine ⟨hsize, hfits, ?_⟩
    rw [(driverRead_some hdata).2.2, length_slice, hdisk.blks]
    rfl
  · exact ((kinds.plain ino ftype hkind).elim hdir hfile).elim

/-- The end of a lookup. -/
theorem Charted.load (h : Charted old kinds fs) {ptr : DentryPtr}
    (hload : loadInode fs ptr = some fs') : Charted old kinds fs' := by
  have hgrows := loadInode_grows hload
  obtain ⟨dentry, hptr, ⟨-, rfl⟩ | ⟨hnull, fs₁, inode, hread, rfl⟩⟩ := loadInode_some hload
  · exact h
  · obtain ⟨-, ino, hino, hkind⟩ := h.unloaded ptr dentry hptr hnull
    rw [hino] at hread
    obtain ⟨hshape, hdir, hmap, more, hmore, hall, hmem⟩ :=
      readInode_stored h.mounted.geometry hkind (h.stored ino _ hkind) hread
    have hlt := (List.getElem?_eq_some_iff.mp hptr).1
    have hheap : (fs₁.setInode ptr dentry inode).heap
        = fs.heap.set ptr { dentry with inode := some inode } ++ more := by
      rw [Fs.setInode, hmore, List.set_append_left _ _ hlt]
    refine h.extend hptr hheap (h.mounted.grows hgrows) hgrows.disk (fun _ _ hk => hk) ?_
      (fun _ _ hk => Or.inl hk) (by simp [hnull]) ⟨ino, h.old_le ino _ hkind, hshape⟩ ?_ hdir ?_
    · intro m t hm
      change bit fs₁.super.mapInode m = true
      rw [hmap]
      exact h.bits m t hm
    · intro sub
      rw [hmem sub]
      exact (or_iff_right (not_entry_of_null hptr hnull sub)).symm
    · intro d hd
      obtain ⟨hdnull, hdold⟩ := hall d hd
      exact ⟨hdold.mono h.old_le, fun _ => hdold, by simp [hdnull]⟩

/-- A write to a file. -/
theorem Charted.overlay (h : Charted old kinds fs) {ptr : DentryPtr} {dentry : Dentry}
    {inode : Inode} (hptr : fs.heap[ptr]? = some dentry) (hinode : dentry.inode = some inode)
    (hfile : dentry.ftype ≠ .dir) {buf : List Byte} {offset : Int} (hoffset : 0 ≤ offset)
    (hlength : offset + buf.length ≤ inode.data.length)
    (hfits : ∀ ino : ℕ, inode.ino = ino → Fits ino (roundUp (inode.overlay buf offset).size 1024)) :
    Charted old kinds (fs.setInode ptr dentry (inode.overlay buf offset)) := by
  have hgrows : fs.Grows (fs.setInode ptr dentry (inode.overlay buf offset)) :=
    ⟨rfl, Super.Grows.refl _, heapGrows_setInode hptr hinode rfl⟩
  obtain ⟨ino, hkind, hshape⟩ := h.shape ptr dentry inode hptr hinode
  have hheap : (fs.setInode ptr dentry (inode.overlay buf offset)).heap
      = fs.heap.set ptr { dentry with inode := some (inode.overlay buf offset) } ++ [] := by
    rw [List.append_nil]
    rfl
  refine h.extend hptr hheap (h.mounted.grows hgrows) rfl (fun _ _ hk => hk) h.bits
    (fun _ _ hk => Or.inl hk) ?_ ⟨ino, hkind, hshape.ino_eq, ?_, ?_⟩ ?_ ?_ (by simp)
  · intro i hi
    rw [hinode] at hi
    cases hi
    rfl
  · exact fun hdir => absurd hdir hfile
  · intro htype
    obtain ⟨hsize, -, hdata⟩ := hshape.file htype
    refine ⟨?_, hfits ino hshape.ino_eq, ?_⟩
    · simp only [Inode.overlay]
      split <;> omega
    · simp only [Inode.overlay]
      rw [length_patch _ _ _ (by omega), hdata]
  · intro sub
    simp only [List.length_nil]
    rw [entry_iff_of_inode hptr hinode]
    exact ⟨Or.inl, fun hsub => hsub.resolve_right (by omega)⟩
  · intro hne
    obtain ⟨sub, hsub⟩ := List.exists_mem_of_ne_nil _ hne
    obtain ⟨d, hd, hdir⟩ := h.entry_dir ptr sub ⟨dentry, inode, hptr, hinode, hsub⟩
    rw [hptr] at hd
    cases hd
    exact hdir

/-- One more number gets a kind. -/
def Kinds.add (kinds : Kinds) (ino : ℕ) (ftype : FileType) (hlt : ino < 3968)
    (hplain : ftype = .dir ∨ ftype = .file) : Kinds where
  kind := Function.update kinds.kind ino (some ftype)
  lt := by
    intro other t hother
    by_cases heq : other = ino
    · exact heq ▸ hlt
    · rw [Function.update_of_ne heq] at hother
      exact kinds.lt other t hother
  plain := by
    intro other t hother
    by_cases heq : other = ino
    · rw [heq, Function.update_self] at hother
      exact Option.some.inj hother ▸ hplain
    · rw [Function.update_of_ne heq] at hother
      exact kinds.plain other t hother

theorem Kinds.add_of_some (kinds : Kinds) {ino m : ℕ} {ftype t : FileType} (hlt : ino < 3968)
    (hplain : ftype = .dir ∨ ftype = .file) (hnew : kinds.kind ino = none)
    (hm : kinds.kind m = some t) : (kinds.add ino ftype hlt hplain).kind m = some t := by
  have hne : m ≠ ino := by
    rintro rfl
    rw [hnew] at hm
    cases hm
  exact (Function.update_of_ne hne _ _).trans hm

theorem Charted.root_kind (h : Charted old kinds fs) : kinds.kind 0 = some .dir := by
  obtain ⟨root, inode, hptr, hdir, hinode, hzero⟩ := h.mounted.root
  obtain ⟨ino, hkind, hshape⟩ := h.shape 0 root inode hptr hinode
  have heq : ino = 0 := by
    have hsame := hshape.ino_eq.symm.trans hzero
    omega
  rw [← heq, ← hdir]
  exact hkind

/-- A number that is claimed is not in use. -/
theorem Charted.kind_claimed (h : Charted old kinds fs) {c : ℕ} {mapInode : List Byte}
    (hclaim : claimBit fs.super.mapInode 0 = some (c, mapInode)) : kinds.kind c = none := by
  cases hold : kinds.kind c with
  | none => rfl
  | some t =>
      have hset := h.bits c t hold
      rw [(claimBit_some (by decide) hclaim).clear] at hset
      cases hset

theorem fits_zero (ino : ℕ) : Fits ino 0 := ⟨le_refl 0, by decide, fun h => absurd rfl h⟩

/-- The dentry that creation adds when a number is left. -/
theorem allocInode_added {dentry : Dentry} {super : Super} {c : ℕ} {mapInode : List Byte}
    (hclaim : claimBit super.mapInode 0 = some (c, mapInode)) (hlimit : (c : Int) ≠ super.maxIno)
    (blks : Int) (junk : Junk) :
    (allocInode blks super dentry junk).2 = { dentry with
      ino := c
      inode := some ⟨c, 0, 0, [], if dentry.ftype = .file then
        slice junk 0 (dataPerFile * blks).toNat else []⟩ } := by
  rw [allocInode, hclaim]
  simp [hlimit]

theorem shape_empty (ino : ℕ) (ftype : FileType) {data : List Byte}
    (hdata : ftype = .file → data.length = 8192) : Shape ino ftype ⟨ino, 0, 0, [], data⟩ := by
  refine ⟨rfl, fun _ => ⟨by simpa using fits_zero ino, le_refl 0, le_refl 0⟩, fun hfile => ?_⟩
  exact ⟨le_refl 0, fits_zero ino, hdata hfile⟩

/-- Creation in a directory that has room for one entry more. -/
theorem Charted.create (h : Charted old kinds fs) {ptr : DentryPtr} {inode : Inode}
    (hopen : Open fs.heap ptr inode) {name : List Byte} {ftype : FileType} {dentry : Dentry}
    (hdentry : newDentry name ftype = some dentry) (hplain : ftype = .dir ∨ ftype = .file)
    {c : ℕ} {mapInode : List Byte} (hclaim : claimBit fs.super.mapInode 0 = some (c, mapInode))
    (hc : c < 3968) (hlimit : (c : Int) ≠ fs.super.maxIno)
    (hfits : ∀ ino : ℕ, inode.ino = ino → Fits ino (140 * ((inode.dentrys.length + 1 : ℕ) : Int)))
    {junk : Junk} (hcreate : Newfs.create fs ptr dentry junk = some fs') :
    Charted old (kinds.add c ftype hc hplain) fs' := by
  have hgrows := create_grows hcreate
  have hclaimed := claimBit_some (by decide) hclaim
  have hmap := create_mapInode hcreate
  rw [(allocInode_claim hclaim hlimit _ junk).1] at hmap
  obtain ⟨hname, rfl⟩ := newDentry_some hdentry
  obtain ⟨last, lastInode, hlast, hinode, super, added, super', linked, halloc,
    ⟨ret, hlink⟩, rfl⟩ :=
    create_some hcreate
  obtain ⟨last', hlast', hdir, hinode'⟩ := hopen
  rw [hlast] at hlast'
  cases hlast'
  rw [hinode] at hinode'
  cases hinode'
  obtain ⟨ino, hkind, hshape⟩ := h.shape ptr last inode hlast hinode
  have hnew := h.kind_claimed hclaim
  have hle : ∀ m t, kinds.kind m = some t →
      (kinds.add c ftype hc hplain).kind m = some t :=
    fun m t hm => kinds.add_of_some hc hplain hnew hm
  have hself : (kinds.add c ftype hc hplain).kind c = some ftype := Function.update_self _ _ _
  have hadded := @allocInode_added
    ⟨name ++ List.replicate (maxFileName - name.length) 0, ftype, -1, none⟩ fs.super c mapInode
    hclaim hlimit (blksSz fs.disk.szIo) junk
  rw [halloc] at hadded
  simp only at hadded
  subst hadded
  have hfront := allocDentry_dentrys (blksSz fs.disk.szIo) super inode fs.heap.length
  have hino := (allocDentry_grows (blksSz fs.disk.szIo) super inode fs.heap.length).2
  obtain ⟨hlo, hhi⟩ := allocDentry_dirCnt (blksSz fs.disk.szIo) super inode fs.heap.length
  rw [hlink] at hfront hino hlo hhi
  simp only at hfront hino hlo hhi
  obtain ⟨-, hcountLo, hcountHi⟩ := hshape.dir hdir
  refine h.extend hlast rfl (h.mounted.grows hgrows) rfl hle ?_ ?_ ?_
    ⟨ino, hle ino _ hkind, hino.trans hshape.ino_eq, ?_, ?_⟩ ?_ (fun _ => hdir) ?_
  · intro m t hm
    rw [hmap, hclaimed.bit_eq]
    by_cases heq : m = c
    · simp [heq]
    · have hold : kinds.kind m = some t := by
        rw [← hm]
        exact (Function.update_of_ne heq _ _).symm
      rw [h.bits m t hold]
      rfl
  · intro m t hm
    by_cases heq : m = c
    · subst heq
      exact Or.inr ⟨_, List.mem_singleton.mpr rfl, _, rfl, rfl⟩
    · exact Or.inl ((Function.update_of_ne heq _ _).symm.trans hm)
  · intro i hi
    rw [hinode] at hi
    cases hi
    exact hino
  · intro _
    rw [hfront, List.length_cons]
    exact ⟨hfits ino hshape.ino_eq, by omega, by push_cast; omega⟩
  · intro hfile
    rw [hdir] at hfile
    cases hfile
  · intro sub
    rw [hfront, List.mem_cons, entry_iff_of_inode hlast hinode, List.length_singleton, or_comm]
    refine or_congr_right ?_
    omega
  · intro d hd
    rw [List.mem_singleton.mp hd]
    refine ⟨⟨?_, c, rfl, hself⟩, by simp, ?_⟩
    · simp only [List.length_append, List.length_replicate]
      simp only [maxFileName] at hname ⊢
      omega
    · intro i hi
      cases hi
      refine ⟨rfl, c, hself, shape_empty c ftype ?_⟩
      intro hfile
      rw [if_pos hfile, length_slice, h.mounted.geometry.blks]
      rfl

end Effects

/-- Right after a mount only the root is loaded. -/
theorem charted_root {kinds : Kinds} {fs : Fs} (hmounted : Mounted fs)
    (hbits : ∀ ino t, kinds.kind ino = some t → bit fs.super.mapInode ino = true)
    (hstored : ∀ ino t, kinds.kind ino = some t →
      Stored kinds fs.disk.bytes ino t fun _ => True)
    {root : Dentry} {inode : Inode} {more : List Dentry} (hheap : fs.heap = root :: more)
    (hdir : root.ftype = .dir) (hinode : root.inode = some inode)
    (hroot : kinds.kind 0 = some .dir) (hshape : Shape 0 .dir inode)
    (hall : ∀ d ∈ more, d.inode = none ∧ Numbered kinds d)
    (hmem : ∀ sub : ℕ, sub ∈ inode.dentrys ↔ 1 ≤ sub ∧ sub < 1 + more.length) :
    Charted kinds kinds fs := by
  have hfirst : fs.heap[0]? = some root := by rw [hheap]; rfl
  have hrest : ∀ {ptr : ℕ} {d : Dentry}, ptr ≠ 0 → fs.heap[ptr]? = some d → d ∈ more := by
    intro ptr d hne hptr
    obtain ⟨k, rfl⟩ := Nat.exists_eq_succ_of_ne_zero hne
    rw [hheap, List.getElem?_cons_succ] at hptr
    exact List.mem_of_getElem? hptr
  have hentry : ∀ ptr sub : ℕ, Entry fs.heap ptr sub → ptr = 0 ∧ sub ∈ inode.dentrys := by
    rintro ptr sub ⟨d, i, hptr, hi, hsub⟩
    by_cases hzero : ptr = 0
    · subst hzero
      rw [hfirst] at hptr
      cases hptr
      rw [hinode] at hi
      cases hi
      exact ⟨rfl, hsub⟩
    · rw [(hall d (hrest hzero hptr)).1] at hi
      cases hi
  refine ⟨hmounted, fun _ _ hkind => hkind, hbits, hstored, fun _ _ hkind => Or.inl hkind,
    ?_, ?_, ?_, ?_, ?_, ?_⟩
  · intro ptr d i hptr hi
    by_cases hzero : ptr = 0
    · subst hzero
      rw [hfirst] at hptr
      cases hptr
      rw [hinode] at hi
      cases hi
      rw [hdir]
      exact ⟨0, hroot, hshape⟩
    · rw [(hall d (hrest hzero hptr)).1] at hi
      cases hi
  · exact fun ptr d hne hptr => (hall d (hrest hne hptr)).2
  · intro ptr d hptr hnull
    refine (hall d (hrest ?_ hptr)).2
    rintro rfl
    rw [hfirst] at hptr
    cases hptr
    rw [hinode] at hnull
    cases hnull
  · intro ptr sub hsub
    rw [(hentry ptr sub hsub).1]
    exact ⟨root, hfirst, hdir⟩
  · intro ptr sub hsub
    obtain ⟨rfl, hin⟩ := hentry ptr sub hsub
    rw [hheap, List.length_cons]
    have hrange := (hmem sub).mp hin
    omega
  · intro sub hne hlt
    rw [hheap, List.length_cons] at hlt
    exact ⟨0, root, inode, hfirst, hinode, (hmem sub).mpr (by omega)⟩

section Unmounting

variable {old kinds : Kinds} {fs fs' : Fs} (h : Charted old kinds fs)

include h

theorem Charted.heapTyped : HeapTyped kinds fs.heap := by
  refine ⟨h.shape, ?_⟩
  intro ptr dentry inode hptr hinode sub d hsub hd
  have hlt := (h.entry_lt ptr sub ⟨dentry, inode, hptr, hinode, hsub⟩).1
  exact h.numbered sub d (Nat.ne_zero_of_lt hlt) hd

/-- Every inode in memory is reached from the root, through the parents. -/
theorem Charted.reached_root {root : Dentry} (hroot : fs.heap[0]? = some root) {ptr : ℕ}
    {dentry : Dentry} (hptr : fs.heap[ptr]? = some dentry) (hloaded : dentry.inode.isSome) :
    Reached fs.heap root dentry := by
  induction ptr using Nat.strong_induction_on generalizing dentry with
  | _ ptr ih =>
      by_cases hzero : ptr = 0
      · subst hzero
        rw [hroot] at hptr
        cases hptr
        exact .refl root
      · obtain ⟨parent, hparent⟩ := h.reached ptr hzero (List.getElem?_eq_some_iff.mp hptr).1
        have hlt := (h.entry_lt parent ptr hparent).1
        obtain ⟨d, hd, hdir⟩ := h.entry_dir parent ptr hparent
        obtain ⟨d', inode, hd', hinode, hmem⟩ := hparent
        rw [hd] at hd'
        cases hd'
        exact (ih parent hlt hd (by simp [hinode])).tail hinode hdir hmem hptr hloaded

/-- After unmounting every number in use is stored. -/
theorem Charted.destroy_stored {junk : Junk} {disk : Disk} (hdestroy : destroy fs junk = some disk)
    (ino : ℕ) (ftype : FileType) (hkind : kinds.kind ino = some ftype) :
    Stored kinds disk.bytes ino ftype fun _ => True := by
  obtain ⟨root, -, hroot, -⟩ := h.mounted.root
  rw [destroy_eq h.mounted hroot] at hdestroy
  obtain ⟨flushed, hsync, rfl⟩ := Option.map_eq_some_iff.mp hdestroy
  obtain ⟨hkept, hflushed⟩ := syncInode_stored h.heapTyped hroot hsync
  have hstored : Stored kinds flushed.bytes ino ftype fun _ => True := by
    rcases h.fresh ino ftype hkind with hold | ⟨ptr, dentry, inode, hptr, hinode, hino⟩
    · exact hkept ino ftype _ hkind ((h.stored ino ftype hold).mono_kinds h.old_le)
    · obtain ⟨ino', hkind', hshape⟩ := h.shape ptr dentry inode hptr hinode
      have heq : ino' = ino := by
        have hsame := hshape.ino_eq.symm.trans hino
        omega
      subst heq
      rw [hkind] at hkind'
      cases hkind'
      exact hflushed dentry (h.reached_root hroot hptr (by simp [hinode])) inode ino' hinode hino
        hkind
  refine hstored.congr ?_ ?_
  · intro addr hlo _
    exact unmountBytes_of_ge _ _ _ h.mounted.mapInodeLength h.mounted.mapDataLength (by omega)
  · intro addr hlo _
    exact unmountBytes_of_ge _ _ _ h.mounted.mapInodeLength h.mounted.mapDataLength (by omega)

/-- A remount finds what unmounting has stored. -/
theorem Charted.remount {junk junk' : Junk} (hrun : (Op.remount junk junk').run fs = some fs') :
    Charted kinds kinds fs' := by
  obtain ⟨disk, hdestroy, hinit⟩ := remount_some hrun
  obtain ⟨himage, hmapInode, -⟩ := destroy_image h.mounted hdestroy
  have hstored := h.destroy_stored hdestroy
  obtain ⟨hmounted, hdisk, -⟩ := init_image_mounted himage hinit
  obtain ⟨fs₁, inode, more, hread, hheap, hnull, rfl⟩ := init_image_some himage hinit
  have hroot := h.root_kind
  have hload := (@readInode_root ⟨disk, imageSuper disk.bytes, [rootDentry]⟩ himage.geometry
    himage.rootIno).trans hread
  obtain ⟨hshape, -, hmap, more', hmore', hall, hmem⟩ :=
    @readInode_stored kinds _ _ 0 .dir inode himage.geometry hroot (hstored 0 .dir hroot) hload
  have hsame : more' = more := by
    rw [hheap] at hmore'
    exact (List.cons.inj hmore').2.symm
  subst hsame
  refine charted_root hmounted ?_ ?_
    (show (fs₁.setInode 0 rootDentry inode).heap
      = { rootDentry with inode := some inode } :: more' by rw [Fs.setInode, hheap]; rfl)
    rfl rfl hroot hshape hall hmem
  · intro ino t hkind
    change bit fs₁.super.mapInode ino = true
    rw [hmap]
    change bit (diskMapInode disk.bytes) ino = true
    rw [hmapInode]
    exact h.bits ino t hkind
  · rw [hdisk]
    exact hstored

end Unmounting

end OperateSystem.Newfs

import OperateSystem.Newfs.Extents

/-!
# The contents of a file

The contents of a regular file are the first `size` bytes of its buffer.  Writes overlay
them, one after the other.  Reads are not cut off at the end of the file: they take as
many bytes of the buffer as they are asked for.
-/

namespace OperateSystem.Newfs

open OperateSystem.ByteStore
open OperateSystem.Invariant

/-- `NEWFS_DATA_PER_FILE * NEWFS_BLKS_SZ()`, the size of the buffer of a file. -/
def capacity (fs : Fs) : ℕ := (dataPerFile * blksSz fs.disk.szIo).toNat

/-- The inode of a file with these contents. -/
structure Inode.Contains (inode : Inode) (capacity : ℕ) (content : List Byte) : Prop where
  data : inode.data.length = capacity
  size : inode.size = content.length
  content : content <+: inode.data

/-- The path leads to a regular file with these contents. -/
def Contains (fs : Fs) (path content : List Byte) : Prop :=
  ∃ fs' found dentry inode, lookup fs path = some (fs', found) ∧ found.isFind = some true ∧
    fs'.heap[found.dentry]? = some dentry ∧ dentry.ftype = .file ∧ dentry.inode = some inode ∧
    inode.Contains (capacity fs) content

/-- A write of `buf` at `offset`. -/
structure FileWrite where
  buf : List Byte
  offset : ℕ

/-- The contents after a write. -/
def FileWrite.overlay (content : List Byte) (write : FileWrite) : List Byte :=
  patch content write.offset write.buf

/-- Each write starts within the contents at its time and ends within the buffer. -/
def Permitted (capacity : ℕ) (content : List Byte) : List FileWrite → Prop
  | [] => True
  | write :: writes =>
      write.offset ≤ content.length ∧ write.offset + write.buf.length ≤ capacity ∧
        Permitted capacity (write.overlay content) writes

/-- The calls of `newfs_write`, each of which returns the number of its bytes. -/
def writeAll (path : List Byte) : (writes : List FileWrite) → Fs → Option Fs
  | [], fs => some fs
  | write :: writes, fs => do
      let (fs, ret) ← Newfs.write fs path write.buf write.offset
      if ret = write.buf.length then writeAll path writes fs else none

/-- The call of `newfs_read` returns how many of the bytes asked for there are before the
end, and stores these. -/
def ReadsContent (fs : Fs) (path content : List Byte) (size offset : ℕ) : Prop :=
  ∃ fs' ret out, read fs path size offset = some (fs', ret, out) ∧
    ret = (min size (content.length - offset) : ℕ) ∧
    out = (content.drop offset).take (min size (content.length - offset))

section Stable

variable {heap heap' : List Dentry}

/-- Names and types are the same, and an inode in memory stays there with its entries. -/
structure SameWay (heap heap' : List Dentry) : Prop where
  names : ∀ ptr : DentryPtr, (heap'[ptr]?).map (fun dentry => (dentry.fname, dentry.ftype))
    = (heap[ptr]?).map fun dentry => (dentry.fname, dentry.ftype)
  dentrys : ∀ (ptr : DentryPtr) (dentry : Dentry) (inode : Inode), heap[ptr]? = some dentry →
    dentry.inode = some inode → ∃ dentry' inode', heap'[ptr]? = some dentry' ∧
      dentry'.inode = some inode' ∧ inode'.dentrys = inode.dentrys

theorem SameWay.findHit (h : SameWay heap heap') (name : List Byte) (dentrys : List DentryPtr) :
    findHit heap' name dentrys = findHit heap name dentrys := by
  have hhits : (fun ptr : DentryPtr => (heap'[ptr]?).any (Dentry.hits name))
      = fun ptr : DentryPtr => (heap[ptr]?).any (Dentry.hits name) := by
    funext ptr
    have hname := h.names ptr
    cases hold : heap[ptr]? with
    | none =>
        rw [hold, Option.map_none, Option.map_eq_none_iff] at hname
        rw [hname]
    | some dentry =>
        rw [hold, Option.map_some] at hname
        obtain ⟨dentry', hnew, hsame⟩ := Option.map_eq_some_iff.mp hname
        simp only [Prod.mk.injEq] at hsame
        rw [hnew, Option.any_some, Option.any_some, Dentry.hits, Dentry.hits, Dentry.chars,
          Dentry.chars, hsame.1, hsame.2]
  rw [Newfs.findHit, Newfs.findHit, hhits]

theorem SameWay.lookupLoop (h : SameWay heap heap') {totalLvl : ℕ} {fnames : List (List Byte)}
    {lvl : ℕ} {cursor : DentryPtr} {acc result : Option DentryPtr × Option Bool}
    (hloop : lookupLoop heap totalLvl fnames lvl cursor acc = some result) :
    Newfs.lookupLoop heap' totalLvl fnames lvl cursor acc = some result := by
  induction fnames generalizing lvl cursor with
  | nil => exact hloop
  | cons fname fnames ih =>
      obtain ⟨dentry, hptr, inode, hinode⟩ : ∃ dentry, heap[cursor]? = some dentry ∧
          ∃ inode, dentry.inode = some inode := by
        simp only [Newfs.lookupLoop, Option.bind_eq_bind] at hloop
        obtain ⟨dentry, hptr, hloop⟩ := Option.bind_eq_some_iff.mp hloop
        obtain ⟨inode, hinode, -⟩ := Option.bind_eq_some_iff.mp hloop
        exact ⟨dentry, hptr, inode, hinode⟩
      obtain ⟨dentry', inode', hptr', hinode', hdentrys⟩ :=
        h.dentrys cursor dentry inode hptr hinode
      have htype : dentry'.ftype = dentry.ftype := by
        have hname := h.names cursor
        rw [hptr, hptr', Option.map_some, Option.map_some, Option.some.injEq,
          Prod.mk.injEq] at hname
        exact hname.2
      rw [lookupLoop_cons hptr hinode] at hloop
      rw [lookupLoop_cons hptr' hinode', htype, hdentrys, h.findHit]
      split at hloop
      · rename_i hfile
        rw [if_pos hfile]
        exact hloop
      · rename_i hfile
        rw [if_neg hfile]
        split at hloop
        · rename_i hdir
          rw [if_pos hdir]
          cases hfind : Newfs.findHit heap fname inode.dentrys with
          | none =>
              rw [hfind] at hloop
              exact hloop
          | some hit =>
              rw [hfind] at hloop
              simp only at hloop ⊢
              split at hloop
              · rename_i hlast
                rw [if_pos hlast]
                exact hloop
              · rename_i hlast
                rw [if_neg hlast]
                exact ih hloop
        · rename_i hdir
          rw [if_neg hdir]
          exact ih hloop

end Stable

section Files

variable {fs fs' : Fs} {path : List Byte} {found : Lookup} {dentry : Dentry} {inode : Inode}

/-- Storing the inode of a dentry leaves every way alone, unless it changes the entries of
an inode in memory. -/
theorem sameWay_setInode {ptr : DentryPtr} (hptr : fs.heap[ptr]? = some dentry)
    (hsame : ∀ old, dentry.inode = some old → inode.dentrys = old.dentrys) :
    SameWay fs.heap (fs.setInode ptr dentry inode).heap := by
  have hheap := heap_setInode hptr inode
  constructor
  · intro other
    rw [hheap]
    split
    · rename_i heq
      rw [← heq, hptr]
      rfl
    · rfl
  · intro other d i hother hi
    rw [hheap]
    split
    · rename_i heq
      rw [← heq, hptr] at hother
      cases hother
      exact ⟨_, inode, rfl, rfl, hsame i hi⟩
    · exact ⟨d, i, hother, hi, rfl⟩

theorem SameWay.lookup {fs₁ : Fs} (h : SameWay fs.heap fs'.heap)
    (hroot : fs'.super.rootDentry = fs.super.rootDentry)
    (hlookup : lookup fs path = some (fs₁, found)) {dentry : Dentry}
    (hptr : fs'.heap[found.dentry]? = some dentry) (hinode : dentry.inode.isSome) :
    Newfs.lookup fs' path = some (fs', found) := by
  obtain ⟨hloop, -, hisRoot⟩ := lookup_some hlookup
  rw [← hroot] at hloop
  rw [lookup_of_loop (h.lookupLoop hloop) hptr hinode, ← hisRoot]

/-- A file that has been looked up is in memory and found again. -/
theorem lookup_file_again (hlookup : lookup fs path = some (fs', found))
    (hptr : fs'.heap[found.dentry]? = some dentry) (hfile : dentry.ftype = .file)
    (hinode : dentry.inode = some inode) : lookup fs' path = some (fs', found) := by
  have hload := (lookup_some hlookup).2.1
  have hgrows := loadInode_grows hload
  apply SameWay.lookup _ (by rw [hgrows.super.rest]) hlookup hptr (by rw [hinode]; rfl)
  obtain ⟨old, hold, ⟨-, rfl⟩ | ⟨hnull, fs₁, inode', hread, rfl⟩⟩ := loadInode_some hload
  · exact ⟨fun _ => rfl, fun other d i hother hi => ⟨d, i, hother, hi, rfl⟩⟩
  · obtain ⟨old', hold', hsame⟩ := hgrows.heap _ old hold
    rw [hptr] at hold'
    cases hold'
    rw [← hsame.ftype, hfile] at hread
    obtain ⟨bytes, -, ⟨hdir, -⟩ | ⟨-, rfl, -⟩ | ⟨-, hother, -⟩⟩ := readInode_some hread
    · cases hdir
    · apply sameWay_setInode hold
      intro i hi
      rw [hnull] at hi
      cases hi
    · exact absurd rfl hother

theorem FileWrite.length_overlay {content : List Byte} {write : FileWrite}
    (hoffset : write.offset ≤ content.length) :
    (write.overlay content).length = max content.length (write.offset + write.buf.length) := by
  simp only [FileWrite.overlay, patch, List.length_append, List.length_take, List.length_drop]
  omega

/-- The bytes of the buffer below the new end are those of the overlaid contents. -/
theorem Inode.Contains.overlay {size : ℕ} {content : List Byte} (h : inode.Contains size content)
    {write : FileWrite} (hoffset : write.offset ≤ content.length)
    (hend : write.offset + write.buf.length ≤ size) :
    (inode.overlay write.buf write.offset).Contains size (write.overlay content) := by
  obtain ⟨rest, hrest⟩ := h.content
  refine ⟨?_, ?_, ?_⟩
  · simp only [Inode.overlay, Int.toNat_natCast]
    rw [length_patch _ _ _ (by rw [h.data]; exact hend), h.data]
  · rw [overlay_size, write.length_overlay hoffset, h.size]
    push_cast
    rfl
  · have htail : patch inode.data write.offset write.buf = write.overlay content
        ++ rest.drop (write.offset + write.buf.length - content.length) := by
      rw [← hrest, FileWrite.overlay, patch, patch, List.take_append_of_le_length hoffset,
        List.drop_append, List.append_assoc, List.append_assoc, List.append_assoc]
    exact ⟨_, htail.symm⟩

/-- A permitted write overlays the contents. -/
theorem Contains.write {content : List Byte} (h : Contains fs path content) {write : FileWrite}
    (hoffset : write.offset ≤ content.length)
    (hend : write.offset + write.buf.length ≤ capacity fs) :
    ∃ fs', Newfs.write fs path write.buf write.offset = some (fs', (write.buf.length : Int)) ∧
      capacity fs' = capacity fs ∧ Contains fs' path (write.overlay content) := by
  obtain ⟨fs₁, found, dentry, inode, hlookup, hfind, hptr, hfile, hinode, hcontains⟩ := h
  have hagain := lookup_file_again hlookup hptr hfile hinode
  have hsize := hcontains.size
  have hdata := hcontains.data
  have hcapacity : capacity fs₁ = capacity fs := by
    rw [capacity, capacity, (lookup_grows hlookup).disk]
  have hcall : Newfs.write fs path write.buf write.offset
      = some (fs₁.setInode found.dentry dentry (inode.overlay write.buf write.offset),
          (write.buf.length : Int)) := by
    have hseek : ¬ inode.size < (write.offset : Int) := by omega
    have hfit : (0 : Int) ≤ write.offset ∧
        (write.offset : Int) + write.buf.length ≤ inode.data.length := by omega
    simp only [Newfs.write, hlookup, hfind, hptr, hinode, hfile, hseek, hfit, Option.bind_eq_bind,
      Option.bind_some, if_false, and_self, if_true, reduceCtorEq]
    rfl
  have hstored := heap_setInode hptr (inode.overlay write.buf write.offset) found.dentry
  rw [if_pos rfl] at hstored
  refine ⟨_, hcall, hcapacity, _, found, _, _, ?_, hfind, hstored, hfile, rfl, ?_⟩
  · have hway : SameWay fs₁.heap
        (fs₁.setInode found.dentry dentry (inode.overlay write.buf write.offset)).heap := by
      apply sameWay_setInode hptr
      intro old hold
      rw [hinode] at hold
      cases hold
      rfl
    refine hway.lookup ?_ hagain hstored rfl
    rfl
  · rw [show capacity (fs₁.setInode found.dentry dentry (inode.overlay write.buf write.offset))
      = capacity fs from hcapacity]
    exact hcontains.overlay hoffset hend

/-- Any number of permitted writes. -/
theorem Contains.writeAll {content : List Byte} (h : Contains fs path content)
    {writes : List FileWrite} (hpermitted : Permitted (capacity fs) content writes) :
    ∃ fs', Newfs.writeAll path writes fs = some fs' ∧
      Contains fs' path (writes.foldl FileWrite.overlay content) := by
  induction writes generalizing fs content with
  | nil => exact ⟨fs, rfl, h⟩
  | cons write writes ih =>
      obtain ⟨hoffset, hend, hrest⟩ := hpermitted
      obtain ⟨fs₁, hwrite, hcapacity, hcontains⟩ := h.write hoffset hend
      rw [← hcapacity] at hrest
      obtain ⟨fs', hwrites, hfinal⟩ := ih hcontains hrest
      refine ⟨fs', ?_, hfinal⟩
      rw [Newfs.writeAll, hwrite, Option.bind_eq_bind, Option.bind_some]
      simp only [if_true]
      exact hwrites

/-- A read within the contents is right; one past their end is not cut off. -/
theorem Contains.read_iff {content : List Byte} (h : Contains fs path content) {size offset : ℕ}
    (hoffset : offset ≤ content.length) :
    ReadsContent fs path content size offset ↔ offset + size ≤ content.length := by
  obtain ⟨fs₁, found, dentry, inode, hlookup, hfind, hptr, hfile, hinode, hcontains⟩ := h
  have hsize := hcontains.size
  have hseek : ¬ inode.size < (offset : Int) := by omega
  have hcall : read fs path size offset
      = if (0 : Int) ≤ offset ∧ (offset : Int) + size ≤ inode.data.length then
          some (fs₁, (size : Int), (inode.data.drop offset).take size)
        else none := by
    simp only [read, hlookup, hfind, hptr, hinode, hfile, hseek, Option.bind_eq_bind,
      Option.bind_some, if_false, reduceCtorEq, Int.toNat_natCast]
    rfl
  rw [ReadsContent, hcall]
  constructor
  · rintro ⟨fs', ret, out, hread, hret, -⟩
    split at hread
    · cases hread
      omega
    · cases hread
  · intro hend
    have hmin : min size (content.length - offset) = size := by omega
    have hle := hcontains.content.length_le
    obtain ⟨rest, hrest⟩ := hcontains.content
    refine ⟨fs₁, size, (inode.data.drop offset).take size, ?_, by rw [hmin], ?_⟩
    · rw [if_pos (by omega)]
    · rw [hmin, ← hrest, List.drop_append_of_le_length hoffset,
        List.take_append_of_le_length (by rw [List.length_drop]; omega)]

end Files

/-- In a run in which every call leaves room, every regular file that a path leads to has
contents. -/
theorem exists_contains {szIo : ℕ} (hszIo : szIo ∣ 1024) {junk : Junk} {fs₀ fs fs' : Fs}
    (hinit : init (blankDisk szIo) junk = some fs₀) (hrun : Reachable RoomyStep fs₀ fs)
    {path : List Byte} {found : Lookup} {dentry : Dentry}
    (hlookup : lookup fs path = some (fs', found)) (hfind : found.isFind = some true)
    (hptr : fs'.heap[found.dentry]? = some dentry) (hfile : dentry.ftype = .file) :
    ∃ content, Contains fs path content := by
  obtain ⟨mapInode, hclaimed, hfresh⟩ := init_blank hszIo junk
  rw [hfresh] at hinit
  cases hinit
  obtain ⟨old, kinds, hcharted⟩ := reachable_invariant (fun fs => ∃ old kinds, Charted old kinds fs)
    ⟨_, _, freshFs_charted hszIo junk hclaimed⟩
    (fun _ _ ⟨_, _, hcharted⟩ hstep => hcharted.step hstep) hrun
  have hload := (lookup_some hlookup).2.1
  have hloaded := hcharted.load hload
  obtain ⟨inode, hinode⟩ : ∃ inode, dentry.inode = some inode := by
    obtain ⟨loaded, hloadedPtr, hsome⟩ := loadInode_loaded hload
    rw [hptr] at hloadedPtr
    cases hloadedPtr
    exact Option.isSome_iff_exists.mp hsome
  obtain ⟨ino, -, hshape⟩ := hloaded.shape _ dentry inode hptr hinode
  obtain ⟨hnonneg, hfits, hdata⟩ := hshape.file hfile
  have hcapacity : capacity fs = 8192 := by
    rw [capacity, hcharted.mounted.geometry.blks]
    rfl
  have hround := roundUp_spec hnonneg (show (0 : Int) < 1024 by decide)
  have hregion := hfits.region
  refine ⟨inode.data.take inode.size.toNat, fs', found, dentry, inode, hlookup, hfind, hptr, hfile,
    hinode, hdata.trans hcapacity.symm, ?_, List.take_prefix _ _⟩
  rw [List.length_take, hdata]
  omega

/-- Whatever is written to a regular file overlays its contents, and a read within them is
right just when it does not go past their end. -/
theorem file_contents_iff {fs : Fs} {path content : List Byte} (h : Contains fs path content)
    {writes : List FileWrite} (hpermitted : Permitted (capacity fs) content writes) :
    ∃ fs', writeAll path writes fs = some fs' ∧
      Contains fs' path (writes.foldl FileWrite.overlay content) ∧
      ∀ size offset, offset ≤ (writes.foldl FileWrite.overlay content).length →
        (ReadsContent fs' path (writes.foldl FileWrite.overlay content) size offset ↔
          offset + size ≤ (writes.foldl FileWrite.overlay content).length) := by
  obtain ⟨fs', hwrites, hcontains⟩ := h.writeAll hpermitted
  exact ⟨fs', hwrites, hcontains, fun _ _ hoffset => hcontains.read_iff hoffset⟩

/-- A fresh device after `mknod /a` of a regular file. -/
def emptyFile : Option Fs :=
  (init (blankDisk 512) fun _ => 0).bind fun fs =>
    (mknod fs (pathOf [[97]]) .reg fun _ => 0).map Prod.fst

theorem emptyFile_eq :
    (emptyFile.bind fun fs => (lookup fs (pathOf [[97]])).bind fun result =>
      (result.1.heap[result.2.dentry]?).bind fun dentry => dentry.inode.map fun inode =>
        (result.2.isFind, dentry.ftype, inode.size, inode.data.length))
      = some (some true, .file, 0, 8192) := by
  decide +kernel

theorem emptyFile_contains :
    ∃ fs, emptyFile = some fs ∧ capacity fs = 8192 ∧ Contains fs (pathOf [[97]]) [] := by
  obtain ⟨fs, hfs, hlookup⟩ := Option.bind_eq_some_iff.mp emptyFile_eq
  obtain ⟨⟨fs', found⟩, hlookup, hptr⟩ := Option.bind_eq_some_iff.mp hlookup
  obtain ⟨dentry, hptr, hinode⟩ := Option.bind_eq_some_iff.mp hptr
  obtain ⟨inode, hinode, hfacts⟩ := Option.map_eq_some_iff.mp hinode
  simp only [Prod.mk.injEq] at hfacts
  obtain ⟨hfind, hfile, hsize, hdata⟩ := hfacts
  have hcapacity : capacity fs = 8192 := by
    obtain ⟨fs₀, hinit, hmknod⟩ := Option.bind_eq_some_iff.mp hfs
    obtain ⟨⟨_, ret⟩, hcall, rfl⟩ := Option.map_eq_some_iff.mp hmknod
    obtain ⟨mapInode, -, hfresh⟩ := init_blank (show 512 ∣ 1024 by decide) fun _ => 0
    rw [hfresh] at hinit
    cases hinit
    rw [capacity, (mknod_grows hcall).disk,
      (geometry_freshFs (show 512 ∣ 1024 by decide) (fun _ => 0) mapInode).blks]
    rfl
  exact ⟨fs, hfs, hcapacity, fs', found, dentry, inode, hlookup, hfind, hptr, hfile, hinode,
    hdata.trans hcapacity.symm, hsize, List.nil_prefix⟩

/-- Two bytes and then one over the second of them. -/
def twoWrites : List FileWrite := [⟨[104, 105], 0⟩, ⟨[111], 1⟩]

theorem file_contents_two_writes :
    ∃ fs fs', emptyFile = some fs ∧ writeAll (pathOf [[97]]) twoWrites fs = some fs' ∧
      Contains fs' (pathOf [[97]]) [104, 111] ∧
      ReadsContent fs' (pathOf [[97]]) [104, 111] 1 1 := by
  obtain ⟨fs, hfs, hcapacity, hcontains⟩ := emptyFile_contains
  have hpermitted : Permitted (capacity fs) [] twoWrites := by
    rw [hcapacity]
    simp [Permitted, twoWrites, FileWrite.overlay, patch]
  obtain ⟨fs', hwrites, hfinal, hreads⟩ := file_contents_iff hcontains hpermitted
  exact ⟨fs, fs', hfs, hwrites, hfinal, (hreads 1 1 (by decide)).mpr (by decide)⟩

/-- Reading one byte of an empty file returns one byte. -/
theorem file_contents_not_clipped :
    ∃ fs path content size offset, Contains fs path content ∧ offset ≤ content.length ∧
      ¬ ReadsContent fs path content size offset := by
  obtain ⟨fs, -, -, hcontains⟩ := emptyFile_contains
  refine ⟨fs, _, [], 1, 0, hcontains, Nat.le_refl _, ?_⟩
  rw [hcontains.read_iff (Nat.zero_le _)]
  decide

end OperateSystem.Newfs

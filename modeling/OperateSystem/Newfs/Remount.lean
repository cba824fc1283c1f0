import OperateSystem.Newfs.Represent

/-!
# Remounting

Unmounting puts every inode in memory on the device, where the next mount finds it.  The
flush writes all entries that a directory links, but the mount reads as many of them as the
record counts.  So the tree comes back when every directory in memory has counted what it
links, and the state after the remount represents the same catalog as the state before.
-/

namespace OperateSystem.Newfs

open OperateSystem.Bitmap
open OperateSystem.ByteStore
open OperateSystem.Invariant
open OperateSystem.NamedTree

/-- Every directory in memory has counted the entries that it links. -/
def CountsEntries (fs : Fs) : Prop :=
  Each (fun ftype inode => ftype = .dir → inode.dirCnt = inode.dentrys.length) fs

/-- The call leaves room for what it adds, or unmounts when all entries are counted. -/
def Lasting (fs : Fs) : Op → Prop
  | .remount _ _ => CountsEntries fs
  | op => Roomy fs op

def LastingStep (fs fs' : Fs) : Prop := ∃ op : Op, Lasting fs op ∧ op.run fs = some fs'

section Archives

variable {catalog : Catalog} {kinds : Kinds} {bytes bytes' : ℕ → Byte} {ino : ℕ}
  {ftype : FileType} {heap : List Dentry} {inode : Inode}

/-- What is archived depends on the slot and the data region of the number. -/
theorem Archived.congr (h : Archived catalog bytes ino ftype)
    (hstored : Stored kinds bytes' ino ftype fun _ => True)
    (hslot : ∀ addr, 3072 + 32 * ino ≤ addr → addr < 3072 + 32 * ino + 32 →
      bytes' addr = bytes addr)
    (hdata : ∀ addr, 130048 + 8192 * ino ≤ addr → addr < 130048 + 8192 * ino + 8192 →
      bytes' addr = bytes addr) : Archived catalog bytes' ino ftype := by
  have hinode := diskInode_congr hslot
  have hentry : ftype = .dir → ∀ i : ℕ, (i : Int) < (diskInode bytes ino).dirCnt →
      diskEntry bytes' ino i = diskEntry bytes ino i := by
    intro hdir i hi
    have hregion := (hstored.dir hdir).region
    rw [hinode] at hregion
    exact diskEntry_congr fun addr hlo hhi => hdata addr (by omega) (by omega)
  refine ⟨?_, ?_, ?_⟩
  · intro hdir name t sub
    rw [h.entry hdir, hinode]
    refine exists_congr fun i => and_congr_right fun hi => ?_
    rw [hentry hdir i hi]
  · intro hdir i j hi hj heq
    rw [hinode] at hi hj
    rw [hentry hdir i hi, hentry hdir j hj] at heq
    exact h.distinct hdir i j hi hj heq
  · intro hfile
    obtain ⟨hsize, hfits⟩ := hstored.file hfile
    have hregion := hfits.region
    have hup := (roundUp_spec hsize (show (0 : Int) < 1024 by decide)).2.1
    rw [hinode] at hup hregion
    rw [h.file hfile, fileOn, fileOn, recordOn_natCast, recordOn_natCast, hinode,
      daOfs_start, slice_congr fun addr hlo hhi => hdata addr hlo (by omega)]

/-- What is on the device after the flush is what the catalog says, when all entries are
counted. -/
theorem OnDisk.archived (h : OnDisk heap bytes ftype inode ino)
    (hhoused : Housed heap ftype inode ino) (hkeeps : Keeps catalog heap ftype inode)
    (hcounts : ftype = .dir → inode.dirCnt = inode.dentrys.length)
    (hinj : ∀ p ∈ inode.dentrys, ∀ q ∈ inode.dentrys, ∀ d d', heap[p]? = some d →
      heap[q]? = some d' → d.ino = d'.ino → p = q) : Archived catalog bytes ino ftype := by
  have hcount : ftype = .dir → (diskInode bytes ino).dirCnt = inode.dentrys.length := by
    intro hdir
    have hlength := (hhoused.dir hdir).1
    have hlinked := hcounts hdir
    rw [h.record]
    exact (toInt32_of_range (by omega) (by omega)).trans hlinked
  have hentry : ftype = .dir → ∀ i : ℕ, (i : Int) < (diskInode bytes ino).dirCnt →
      ∃ ptr sub, inode.dentrys[i]? = some ptr ∧ heap[ptr]? = some sub ∧
        diskEntry bytes ino i = ⟨sub.fname, sub.ftype, sub.ino⟩ := by
    intro hdir i hi
    rw [hcount hdir, Int.ofNat_lt] at hi
    obtain ⟨sub, hsub, -⟩ := (hhoused.dir hdir).2 _ (List.getElem_mem hi)
    have hptr := List.getElem?_eq_getElem hi
    exact ⟨_, sub, hptr, hsub, h.entries hdir i _ sub hptr hsub⟩
  refine ⟨?_, ?_, ?_⟩
  · intro hdir name t sub
    rw [hkeeps.entry hdir ino hhoused.ino_eq]
    constructor
    · rintro ⟨p, hp, d, hd, hname, htype, hnum⟩
      obtain ⟨i, hi⟩ := List.mem_iff_getElem?.mp hp
      have hlt := (List.getElem?_eq_some_iff.mp hi).1
      refine ⟨i, ?_, ?_⟩
      · rw [hcount hdir]
        exact Int.ofNat_lt.mpr hlt
      · rw [h.entries hdir i p d hi hd]
        exact ⟨hname, htype, hnum⟩
    · rintro ⟨i, hi, hname, htype, hnum⟩
      obtain ⟨p, d, hp, hd, heq⟩ := hentry hdir i hi
      rw [heq] at hname htype hnum
      exact ⟨p, List.mem_of_getElem? hp, d, hd, hname, htype, hnum⟩
  · intro hdir i j hi hj heq
    obtain ⟨p, d, hp, hd, hrecord⟩ := hentry hdir i hi
    obtain ⟨q, d', hq, hd', hrecord'⟩ := hentry hdir j hj
    rw [hrecord, hrecord'] at heq
    have hsame := hinj p (List.mem_of_getElem? hp) q (List.mem_of_getElem? hq) d d' hd hd' heq
    rw [← hsame] at hq
    exact (List.getElem?_inj (List.getElem?_eq_some_iff.mp hp).1 hkeeps.nodup).mp
      (hp.trans hq.symm)
  · intro hfile
    obtain ⟨hlo, hhi, -⟩ := hhoused.file hfile
    have hsize : (diskInode bytes ino).size = inode.size := by
      rw [h.record]
      exact toInt32_of_range (by omega) (by omega)
    rw [hkeeps.file hfile ino hhoused.ino_eq, fileOn, recordOn_natCast, hsize, daOfs_start,
      h.data hfile, Inode.file]

end Archives

theorem Reached.exists_ptr {heap : List Dentry} {root dentry : Dentry}
    (h : Reached heap root dentry) {ptr : DentryPtr} (hptr : heap[ptr]? = some root) :
    ∃ other : DentryPtr, heap[other]? = some dentry := by
  induction h generalizing ptr with
  | refl => exact ⟨ptr, hptr⟩
  | child _ _ _ hsub _ _ ih => exact ih hsub

section Flushing

variable {old kinds : Kinds} {fs : Fs} (h : Charted old kinds fs)

include h

theorem Charted.entry_legible {ptr : DentryPtr} {dentry : Dentry} {inode : Inode}
    (hptr : fs.heap[ptr]? = some dentry) (hinode : dentry.inode = some inode) {sub : DentryPtr}
    (hsub : sub ∈ inode.dentrys) : ∃ d, fs.heap[sub]? = some d ∧ Legible d := by
  obtain ⟨hlt, hin⟩ := h.entry_lt ptr sub ⟨dentry, inode, hptr, hinode, hsub⟩
  have hd := List.getElem?_eq_getElem hin
  obtain ⟨hname, ino, hino, hkind⟩ := h.numbered sub _ (Nat.ne_zero_of_lt hlt) hd
  have hrange := kinds.lt ino _ hkind
  refine ⟨_, hd, hname, ?_, by omega⟩
  intro raw hraw
  rcases kinds.plain ino _ hkind with hdir | hfile
  · rw [hdir] at hraw
    cases hraw
  · rw [hfile] at hraw
    cases hraw

/-- An inode in memory keeps to its place. -/
theorem Charted.housed {ptr : DentryPtr} {dentry : Dentry} {inode : Inode}
    (hptr : fs.heap[ptr]? = some dentry) (hinode : dentry.inode = some inode) :
    ∃ ino, kinds.kind ino = some dentry.ftype ∧ Shape ino dentry.ftype inode ∧
      Housed fs.heap dentry.ftype inode ino := by
  obtain ⟨ino, hkind, hshape⟩ := h.shape ptr dentry inode hptr hinode
  refine ⟨ino, hkind, hshape, hshape.ino_eq, kinds.lt ino _ hkind, ?_, ?_⟩
  · intro hdir
    have hregion := (hshape.dir hdir).1.region
    exact ⟨by omega, fun sub hsub => h.entry_legible hptr hinode hsub⟩
  · intro hfile
    obtain ⟨hsize, hfits, hlength⟩ := hshape.file hfile
    have hregion := hfits.region
    have hup := (roundUp_spec hsize (show (0 : Int) < 1024 by decide)).2.1
    exact ⟨hsize, by omega, hlength⟩

/-- Unmounting returns; the entries lie further up the arena, so there is fuel enough. -/
theorem Charted.exists_sync (junk : Junk) {fuel ptr : ℕ} {dentry : Dentry}
    (hptr : fs.heap[ptr]? = some dentry) (hloaded : dentry.inode.isSome)
    (hfuel : fs.heap.length ≤ ptr + fuel) {disk : Disk} (hdisk : Geometry disk) :
    ∃ disk', syncInode fs.heap junk fuel dentry disk = some disk' := by
  induction fuel generalizing ptr dentry disk with
  | zero =>
      have hlt := (List.getElem?_eq_some_iff.mp hptr).1
      omega
  | succ fuel ih =>
      obtain ⟨inode, hinode⟩ := Option.isSome_iff_exists.mp hloaded
      obtain ⟨ino, -, hshape, hhoused⟩ := h.housed hptr hinode
      apply hhoused.exists_sync hinode (fun hdir => (hshape.dir hdir).1)
        (fun hfile => (hshape.file hfile).2.1) _ hdisk
      intro _ sub hsub d hd hsubLoaded disk hdisk
      have hlt := (h.entry_lt ptr sub ⟨dentry, inode, hptr, hinode, hsub⟩).1
      exact ih hd hsubLoaded (by omega) hdisk

theorem Charted.exists_destroy (junk : Junk) : ∃ disk, destroy fs junk = some disk := by
  obtain ⟨root, inode, hroot, -, hinode, -⟩ := h.mounted.root
  obtain ⟨flushed, hsync⟩ := @Charted.exists_sync old kinds fs h junk fs.heap.length 0 root hroot
    (by simp [hinode]) (by omega) fs.disk h.mounted.geometry
  refine ⟨{ flushed with bytes := unmountBytes fs.super junk flushed.bytes }, ?_⟩
  rw [destroy_eq h.mounted hroot, hsync]
  rfl

end Flushing

theorem root_only {root dentry : Dentry} {ptr : ℕ} (hptr : [root][ptr]? = some dentry) :
    ptr = 0 ∧ dentry = root := by
  cases ptr with
  | zero => exact ⟨rfl, (Option.some.inj hptr).symm⟩
  | succ ptr => cases hptr

/-- Memory with the root alone. -/
theorem matches_root {catalog : Catalog} {root : Dentry}
    (hroot : ∀ inode, root.inode = some inode → inode.ino = 0 ∧
      Keeps catalog [root] root.ftype inode) : Matches catalog [root] := by
  refine ⟨?_, ?_, ?_⟩
  · intro ptr ptr' dentry dentry' hptr hptr' _
    rw [(root_only hptr).1, (root_only hptr').1]
  · rintro ptr dentry inode ⟨hptr, hinode⟩
    obtain ⟨rfl, rfl⟩ := root_only hptr
    exact (hroot inode hinode).1
  · rintro ptr dentry inode ⟨hptr, hinode⟩
    obtain ⟨rfl, rfl⟩ := root_only hptr
    exact (hroot inode hinode).2

section Remounting

variable {catalog : Catalog} {old kinds : Kinds} {fs fs' : Fs}
  (h : Represents catalog old kinds fs)

include h

theorem Represents.housedTree {root : Dentry} {inode : Inode} (hroot : fs.heap[0]? = some root)
    (hinode : root.inode = some inode) : HousedTree fs.heap root := by
  refine ⟨by simp [hinode], ?_, ?_⟩
  · intro dentry inode hreached hinode
    obtain ⟨ptr, hptr⟩ := hreached.exists_ptr hroot
    obtain ⟨ino, -, -, hhoused⟩ := h.charted.housed hptr hinode
    exact ⟨ino, hhoused⟩
  · intro dentry inode dentry' inode' hreached hinode hreached' hinode' heq
    obtain ⟨ptr, hptr⟩ := hreached.exists_ptr hroot
    obtain ⟨ptr', hptr'⟩ := hreached'.exists_ptr hroot
    have hnumber := h.memory.number ⟨hptr, hinode⟩
    have hnumber' := h.memory.number ⟨hptr', hinode'⟩
    have hsame : ptr = ptr' :=
      h.memory.inj hptr hptr' (hnumber.symm.trans (heq.trans hnumber'))
    subst hsame
    exact Option.some.inj (hptr.symm.trans hptr')

/-- After unmounting every number in use is on the device as the catalog has it. -/
theorem Represents.archived (hcounts : CountsEntries fs) {junk : Junk} {disk : Disk}
    (hdestroy : destroy fs junk = some disk) (ino : ℕ) (ftype : FileType)
    (hkind : kinds.kind ino = some ftype) : Archived catalog disk.bytes ino ftype := by
  have hstored := h.charted.destroy_stored hdestroy ino ftype hkind
  have hlt := kinds.lt ino ftype hkind
  have hblks := h.charted.mounted.geometry.blks
  obtain ⟨root, rootInode, hroot, -, hrootInode, -⟩ := h.charted.mounted.root
  rw [destroy_eq h.charted.mounted hroot] at hdestroy
  obtain ⟨flushed, hsync, rfl⟩ := Option.map_eq_some_iff.mp hdestroy
  have htree := h.housedTree hroot hrootInode
  have hmeta : ∀ addr, 3072 ≤ addr →
      unmountBytes fs.super junk flushed.bytes addr = flushed.bytes addr := fun addr =>
    unmountBytes_of_ge _ _ _ h.charted.mounted.mapInodeLength h.charted.mounted.mapDataLength
  by_cases hdormant : Dormant fs.heap ino
  · -- No write of the flush touches a number that is not loaded.
    have hold : old.kind ino = some ftype := by
      rcases h.charted.fresh ino ftype hkind with hold | ⟨ptr, d, i, hptr, hinode, hino⟩
      · exact hold
      · exact absurd hino (hdormant ptr d i ⟨hptr, hinode⟩)
    obtain ⟨hslot, hdata⟩ := htree.untouched hblks rfl hsync hlt fun d i hreached hi => by
      obtain ⟨ptr, hptr⟩ := hreached.exists_ptr hroot
      exact hdormant ptr d i ⟨hptr, hi⟩
    refine (h.dormant ino ftype hold hdormant).congr hstored ?_ ?_
    · intro addr hlo hhi
      exact (hmeta addr (by omega)).trans (apply_eq_of_slice_eq hslot hlo hhi)
    · intro addr hlo hhi
      exact (hmeta addr (by omega)).trans (apply_eq_of_slice_eq hdata hlo hhi)
  · simp only [Dormant, not_forall, not_not] at hdormant
    obtain ⟨ptr, dentry, inode, hloaded, hino⟩ := hdormant
    obtain ⟨hptr, hinode⟩ := hloaded
    obtain ⟨ino', hkind', hshape, hhoused⟩ := h.charted.housed hptr hinode
    obtain rfl : ino' = ino := Int.natCast_inj.mp (hshape.ino_eq.symm.trans hino)
    obtain rfl : ftype = dentry.ftype := Option.some.inj (hkind.symm.trans hkind')
    have hreached := h.charted.reached_root hroot hptr (by simp [hinode])
    have hflushed := (htree.onDisk hblks rfl hsync hreached hinode hhoused).archived hhoused
      (h.memory.keeps ⟨hptr, hinode⟩) (hcounts ptr dentry inode hptr hinode)
      fun p hp q hq d d' hd hd' heq => by
        have hne := (h.charted.entry_lt ptr p ⟨dentry, inode, hptr, hinode, hp⟩).1
        have hne' := (h.charted.entry_lt ptr q ⟨dentry, inode, hptr, hinode, hq⟩).1
        apply h.memory.inj hd hd'
        rw [numberAt_of_ne (Nat.ne_zero_of_lt hne), numberAt_of_ne (Nat.ne_zero_of_lt hne'), heq]
    refine hflushed.congr hstored ?_ ?_
    · intro addr hlo _
      exact hmeta addr (by omega)
    · intro addr hlo _
      exact hmeta addr (by omega)

/-- A remount comes back with the catalog. -/
theorem Represents.remount (hcounts : CountsEntries fs) {junk junk' : Junk}
    (hrun : (Op.remount junk junk').run fs = some fs') : Represents catalog kinds kinds fs' := by
  have hcharted := h.charted.remount hrun
  obtain ⟨disk, hdestroy, hinit⟩ := remount_some hrun
  have harchived := h.archived hcounts hdestroy
  obtain ⟨himage, -⟩ := destroy_image h.charted.mounted hdestroy
  obtain ⟨-, hdisk, -⟩ := init_image_mounted himage hinit
  obtain ⟨fs₁, inode, more, hread, hheap, hnull, rfl⟩ := init_image_some himage hinit
  refine ⟨hcharted, h.typed, ?_, ?_⟩
  · have hload := (@readInode_root ⟨disk, imageSuper disk.bytes, [rootDentry]⟩ himage.geometry
      himage.rootIno).trans hread
    obtain ⟨hself, hkeeps, more', hmore, hdistinct, hall⟩ :=
      @readInode_keeps catalog kinds ⟨disk, imageSuper disk.bytes, [rootDentry]⟩ fs₁ 0 .dir inode
        himage.geometry h.charted.root_kind
        (h.charted.destroy_stored hdestroy 0 .dir h.charted.root_kind)
        (harchived 0 .dir h.charted.root_kind) hload
    have hroot : fs₁.heap[0]? = some rootDentry := by rw [hheap]; rfl
    have hfront : (fs₁.setInode 0 rootDentry inode).heap
        = [rootDentry].set 0 { rootDentry with inode := some inode } ++ more' := by
      rw [Fs.setInode, hmore]
      rfl
    have hbelow : ∀ p ∈ inode.dentrys, p < fs₁.heap.length := by
      intro p hp
      have hstored : (fs₁.setInode 0 rootDentry inode).heap[0]?
          = some { rootDentry with inode := some inode } := by
        rw [heap_setInode hroot, if_pos rfl]
      have hlt := (hcharted.entry_lt 0 p ⟨_, inode, hstored, rfl, hp⟩).2
      rwa [Fs.setInode, List.length_set] at hlt
    refine @Matches.extend catalog catalog ⟨disk, imageSuper disk.bytes, [rootDentry]⟩ _ 0
      rootDentry inode more' (matches_root (by simp [rootDentry])) rfl hfront hself
      (hkeeps.grows (heapGrows_set hroot ⟨rfl, rfl, rfl, by simp [rootDentry]⟩) hbelow
        fun _ _ => .refl _ _) ?_ (fun _ _ _ _ _ _ _ => .refl _ _) hdistinct ?_ ?_
    · intro ptr d i hloaded
      have hi := hloaded.inode_eq
      rw [(root_only hloaded.here).2] at hi
      cases hi
    · intro d hd ptr d₀ hptr heq
      obtain ⟨-, sub, hsub, hentry⟩ := hall d hd
      rw [(root_only hptr).1, numberAt, if_pos rfl, hsub] at heq
      rw [Int.natCast_eq_zero.mp heq] at hentry
      exact catalog.root_free _ _ _ hentry
    · intro d hd i hi
      rw [(hall d hd).1] at hi
      cases hi
  · intro n t hn _
    rw [hdisk]
    exact harchived n t hn

/-- Unmounting and mounting return. -/
theorem Represents.exists_remount (junk junk' : Junk) :
    ∃ fs', (Op.remount junk junk').run fs = some fs' := by
  obtain ⟨disk, hdestroy⟩ := h.charted.exists_destroy junk
  obtain ⟨himage, -⟩ := destroy_image h.charted.mounted hdestroy
  have hstored := h.charted.destroy_stored hdestroy 0 .dir h.charted.root_kind
  have hfits := hstored.dir rfl
  have hread := (@readDentrys_isSome ⟨disk, imageSuper disk.bytes, [rootDentry]⟩ himage.geometry
    0 0 (diskInode disk.bytes 0).dirCnt.toNat (rootInode disk.bytes)).mpr fun j hj => by
      have hdevice := hfits.device (by omega)
      have hsize := himage.geometry.size_eq
      constructor
      · rw [daOfs, dataOfs, dataPerFile, dataSize, sizeofDentryD]
        omega
      · simp only [daOfs, dataOfs, dataPerFile, dataSize, sizeofDentryD, hsize]
        omega
  obtain ⟨⟨fs₁, inode⟩, hloaded⟩ := Option.isSome_iff_exists.mp hread
  obtain ⟨-, -, ⟨more, hmore, -⟩, -⟩ := readDentrys_grows hloaded
  have hheap : fs₁.heap[0]? = some rootDentry := by rw [hmore]; rfl
  refine ⟨fs₁.setInode 0 rootDentry inode, ?_⟩
  rw [Op.run, hdestroy, Option.bind_some, init_image himage, hloaded, Option.bind_some]
  simp only [hheap, Option.bind_some]

/-- Calls that last keep a catalog. -/
theorem Represents.step (hstep : LastingStep fs fs') :
    ∃ catalog' old' kinds', Represents catalog' old' kinds' fs' := by
  obtain ⟨op, hlasting, hrun⟩ := hstep
  cases op, hrun using Op.run_cases with
  | mkdir path junk hrun ret hcall =>
      obtain ⟨catalog', kinds', hrepresents⟩ := h.make hlasting hcall
      exact ⟨catalog', old, kinds', hrepresents⟩
  | mknod path mode junk hrun ret hcall =>
      obtain ⟨catalog', kinds', hrepresents⟩ := h.make hlasting hcall
      exact ⟨catalog', old, kinds', hrepresents⟩
  | write path buf offset hrun ret hwrite =>
      obtain ⟨catalog', hrepresents⟩ := h.write hlasting hwrite
      exact ⟨catalog', old, kinds, hrepresents⟩
  | query op hrun path found hlookup =>
      exact ⟨catalog, old, kinds, h.load (lookup_some hlookup).2.1⟩
  | remount junk junk' hrun => exact ⟨catalog, kinds, kinds, h.remount hlasting hrun⟩

end Remounting

/-- The catalog of a new device. -/
def emptyCatalog : Catalog where
  entry _ _ _ _ := False
  file _ := (0, [])
  unique h := h.elim
  root_free _ _ _ h := h

theorem freshFs_represents {szIo : ℕ} (hszIo : szIo ∣ 1024) (junk : Junk) {mapInode : List Byte}
    (hclaimed : Claimed (slice (fun _ => (0 : Byte)) 1024 1024) 0 mapInode) :
    Represents emptyCatalog rootKinds rootKinds (freshFs szIo junk mapInode) := by
  refine ⟨freshFs_charted hszIo junk hclaimed, ?_, matches_root ?_, ?_⟩
  · exact fun _ _ _ _ hentry => hentry.elim
  · intro inode hinode
    cases hinode
    refine ⟨rfl, List.nodup_nil, ?_, ?_⟩
    · intro _ ino _ name t sub
      exact iff_of_false id (by simp [HasEntry])
    · intro hfile
      cases hfile
  · intro ino ftype hkind hdormant
    have hzero : ino = 0 := by
      by_contra hne
      simp [rootKinds, hne] at hkind
    subst hzero
    exact absurd rfl (hdormant 0 freshRoot ⟨0, 0, 0, [], []⟩ ⟨rfl, rfl⟩)

/-- In a run from a blank device in which every call leaves room and every remount comes when
all entries are counted, such a remount returns and brings the tree back. -/
theorem remount_preserves_tree {szIo : ℕ} (hszIo : szIo ∣ 1024) {junk : Junk} {fs₀ fs : Fs}
    (hinit : init (blankDisk szIo) junk = some fs₀) (hrun : Reachable LastingStep fs₀ fs)
    (hcounts : CountsEntries fs) (junk₁ junk₂ : Junk) :
    ∃ fs', (Op.remount junk₁ junk₂).run fs = some fs' ∧ SameTree fs fs' := by
  obtain ⟨mapInode, hclaimed, hfresh⟩ := init_blank hszIo junk
  rw [hfresh] at hinit
  cases hinit
  obtain ⟨catalog, old, kinds, hrepresents⟩ :=
    reachable_invariant (fun fs => ∃ catalog old kinds, Represents catalog old kinds fs)
      ⟨_, _, _, freshFs_represents hszIo junk hclaimed⟩
      (fun _ _ ⟨_, _, _, hrepresents⟩ hstep => hrepresents.step hstep) hrun
  obtain ⟨fs', hremount⟩ := hrepresents.exists_remount junk₁ junk₂
  exact ⟨fs', hremount, hrepresents.sameTree (hrepresents.remount hcounts hremount)⟩

theorem blankDir_entries :
    (blankDir.map fun run => run.2.1.heap.map fun dentry =>
      (dentry.ftype, dentry.inode.map fun inode => (inode.dirCnt, inode.dentrys.length)))
      = some [(.dir, some (1, 1)), (.dir, some (0, 0))] := by
  decide +kernel

/-- After `mkdir /a` on a blank device. -/
theorem remount_preserves_tree_first :
    ∃ fs₀ fs₁ ret fs₂, blankDir = some (fs₀, fs₁, ret) ∧
      (Op.remount (fun _ => 0) fun _ => 0).run fs₁ = some fs₂ ∧ SameTree fs₁ fs₂ := by
  obtain ⟨⟨fs₀, fs₁, ret⟩, hfirst, hentries⟩ := Option.map_eq_some_iff.mp blankDir_entries
  obtain ⟨hinit, hrun, hroom⟩ := blankDir_roomy hfirst
  have hcounts : CountsEntries fs₁ := by
    intro ptr dentry inode hptr hinode _
    have hmem := List.mem_map_of_mem (List.mem_of_getElem? hptr)
      (f := fun dentry : Dentry => (dentry.ftype, dentry.inode.map fun inode =>
        (inode.dirCnt, inode.dentrys.length)))
    rw [hentries, hinode] at hmem
    simp only [Option.map_some, List.mem_cons, Prod.mk.injEq, Option.some.injEq, List.not_mem_nil,
      or_false] at hmem
    omega
  obtain ⟨fs₂, hremount, hsame⟩ := remount_preserves_tree (show 512 ∣ 1024 by decide) hinit
    (.tail .refl ⟨.mkdir (pathOf [[97]]) fun _ => 0, hroom, hrun⟩) hcounts (fun _ => 0) fun _ => 0
  exact ⟨fs₀, fs₁, ret, fs₂, hfirst, hremount, hsame⟩

section Losing

variable {fs : Fs} {root : Dentry} {inode : Inode}
  (hroot : fs.heap[fs.super.rootDentry]? = some root) (hinode : root.inode = some inode)

include hroot hinode

/-- An entry of the root is shown under its name. -/
theorem shown_of_entry (hdir : root.ftype = .dir) {ptr : DentryPtr} {dentry : Dentry}
    (hmem : ptr ∈ inode.dentrys) (hptr : fs.heap[ptr]? = some dentry) :
    ∃ view, Shown fs [dentry.name] view := by
  have hedge : Edge fs (.memory fs.super.rootDentry) dentry.name (.memory ptr) := by
    refine ⟨root, hroot, hdir, ?_⟩
    rw [hinode]
    exact ⟨ptr, hmem, dentry, hptr, rfl, rfl⟩
  obtain ⟨view, hview⟩ : ∃ view, (Cursor.memory ptr).view fs = some view := by
    rw [Cursor.view, hptr]
    exact ⟨_, rfl⟩
  exact ⟨view, .memory ptr, .step .root hedge, hview⟩

/-- An empty root has no paths below it. -/
theorem not_shown_of_empty (hempty : inode.dentrys = []) (name : List Byte) (view : View) :
    ¬ Shown fs [name] view := by
  rintro ⟨cursor, hlies, -⟩
  obtain ⟨cell, hfront, hedge⟩ := Lies.last (show Lies _ _ ([] ++ [name]) cursor from hlies)
  rw [hfront.nil] at hedge
  obtain ⟨root', hroot', -, hsub⟩ := hedge
  rw [hroot] at hroot'
  cases hroot'
  rw [hinode] at hsub
  obtain ⟨ptr, hmem, -⟩ := hsub
  rw [hempty] at hmem
  cases hmem

end Losing

/-- `mkdir /a` between two remounts of a blank device. -/
def remountedTwice : Option (Fs × Fs × Fs × Fs) :=
  blankRemountDir.bind fun run =>
    ((Op.remount (fun _ => 0) fun _ => 0).run run.2.2.1).map fun fs =>
      (run.1, run.2.1, run.2.2.1, fs)

/-- The root links the new directory before the second remount, and nothing after it. -/
theorem remountedTwice_entries :
    (remountedTwice.bind fun run => run.2.2.1.heap[0]?.bind fun root =>
      root.inode.bind fun inode => run.2.2.1.heap[1]?.bind fun sub =>
        run.2.2.2.heap[0]?.bind fun root' => root'.inode.map fun inode' =>
          (root.ftype, inode.dentrys, sub.name, inode'.dentrys))
      = some (FileType.dir, [1], ([97] : List Byte), []) := by
  decide +kernel

/-- The directory made after the first remount is gone after the second one. -/
theorem remount_loses_tree :
    ∃ fs₀ fs₁ fs₂ fs₃, init (blankDisk 512) (fun _ => 0) = some fs₀ ∧
      (Op.remount (fun _ => 0) fun _ => 0).run fs₀ = some fs₁ ∧
      (Op.mkdir (pathOf [[97]]) fun _ => 0).run fs₁ = some fs₂ ∧
      (Op.remount (fun _ => 0) fun _ => 0).run fs₂ = some fs₃ ∧ ¬ SameTree fs₂ fs₃ := by
  obtain ⟨run, htwice, hentries⟩ := Option.bind_eq_some_iff.mp remountedTwice_entries
  obtain ⟨⟨fs₀, fs₁, fs₂, ret⟩, hrun, hafter⟩ := Option.bind_eq_some_iff.mp htwice
  obtain ⟨fs₃, hlast, rfl⟩ := Option.map_eq_some_iff.mp hafter
  obtain ⟨start, hinit, hrest⟩ := Option.bind_eq_some_iff.mp hrun
  obtain ⟨bare, hremount, hcall⟩ := Option.bind_eq_some_iff.mp hrest
  obtain ⟨made, hmade, heq⟩ := Option.map_eq_some_iff.mp hcall
  cases heq
  have hmkdir : (Op.mkdir (pathOf [[97]]) fun _ => 0).run fs₁ = some fs₂ := by
    rw [Op.run, hmade]
    rfl
  have hreach : Reachable Step fs₀ fs₂ := .tail (.tail .refl ⟨_, hremount⟩) ⟨_, hmkdir⟩
  have hmounted := Run.mounted (show 512 ∣ 1024 by decide) ⟨_, fs₀, hinit, hreach⟩
  have hmounted' := hmounted.step ⟨_, hlast⟩
  refine ⟨fs₀, fs₁, fs₂, fs₃, hinit, hremount, hmkdir, hlast, ?_⟩
  obtain ⟨root, hroot, hentries⟩ := Option.bind_eq_some_iff.mp hentries
  obtain ⟨inode, hinode, hentries⟩ := Option.bind_eq_some_iff.mp hentries
  obtain ⟨sub, hsub, hentries⟩ := Option.bind_eq_some_iff.mp hentries
  obtain ⟨root', hroot', hentries⟩ := Option.bind_eq_some_iff.mp hentries
  obtain ⟨inode', hinode', hentries⟩ := Option.map_eq_some_iff.mp hentries
  simp only [Prod.mk.injEq] at hentries
  obtain ⟨hdir, hlist, hname, hempty⟩ := hentries
  intro hsame
  obtain ⟨view, hshown⟩ := shown_of_entry (hmounted.rootDentry.symm ▸ hroot) hinode hdir
    (hlist ▸ List.mem_singleton.mpr rfl) hsub
  rw [hname] at hshown
  exact not_shown_of_empty (hmounted'.rootDentry.symm ▸ hroot') hinode' hempty [97] view
    ((hsame [[97]] view).mp hshown)

end OperateSystem.Newfs

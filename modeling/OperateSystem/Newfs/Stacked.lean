import OperateSystem.Newfs.Chart

/-!
# The order of the entries of a directory

New entries are linked in front, and a dentry is made before its entries are.  So the
entries of a directory are pairwise different, no directory lies below itself, and what
changes in one directory leaves the way to it alone.
-/

namespace OperateSystem.Newfs

open OperateSystem.Invariant

/-- The entries of every inode in memory are linked latest first, and all were made after
its dentry. -/
def Stacked (heap : List Dentry) : Prop :=
  ∀ (ptr : ℕ) (dentry : Dentry) (inode : Inode), heap[ptr]? = some dentry →
    dentry.inode = some inode → inode.dentrys.Pairwise (· > ·) ∧
      ∀ sub ∈ inode.dentrys, ptr < sub ∧ sub < heap.length

section Steps

variable {fs fs' : Fs} {ptr : ℕ} {dentry : Dentry} {inode : Inode} {more : List Dentry}

/-- What every call does to the arena: one inode is stored and dentries without entries
are added. -/
theorem Stacked.extend (h : Stacked fs.heap) (hptr : fs.heap[ptr]? = some dentry)
    (hheap : fs'.heap = fs.heap.set ptr { dentry with inode := some inode } ++ more)
    (hmore : ∀ d ∈ more, ∀ i, d.inode = some i → i.dentrys = [])
    (hsorted : inode.dentrys.Pairwise (· > ·))
    (hinode : ∀ sub ∈ inode.dentrys, ptr < sub ∧ sub < fs'.heap.length) : Stacked fs'.heap := by
  intro other d i hother hi
  rcases extended_cases hheap hother with ⟨rfl, rfl⟩ | ⟨-, hold⟩ | hnew
  · cases hi
    exact ⟨hsorted, hinode⟩
  · obtain ⟨hsorted, hbounds⟩ := h other d i hold hi
    have hlength : fs.heap.length ≤ fs'.heap.length := by
      rw [hheap, List.length_append, List.length_set]
      exact Nat.le_add_right _ _
    exact ⟨hsorted, fun sub hsub => ⟨(hbounds sub hsub).1, (hbounds sub hsub).2.trans_le hlength⟩⟩
  · rw [hmore d hnew i hi]
    exact ⟨List.Pairwise.nil, by simp⟩

theorem readDentrys_length {ino i : Int} {count : ℕ} {inode' : Inode}
    (h : readDentrys ino count i fs inode = some (fs', inode')) :
    fs'.heap.length = fs.heap.length + count := by
  induction count generalizing i fs inode with
  | zero =>
      cases h
      rfl
  | succ count ih =>
      obtain ⟨bytes, sub, -, -, hrest⟩ := readDentrys_succ h
      rw [ih hrest, List.length_append, List.length_singleton, Nat.add_assoc, Nat.add_comm 1]

/-- The entries of a loaded directory are the dentries that the load has added. -/
theorem readDentrys_stacked {ino i : Int} {count : ℕ} {inode' : Inode} (hempty : inode.dentrys = [])
    (h : readDentrys ino count i fs inode = some (fs', inode')) :
    inode'.dentrys.Pairwise (· > ·) ∧
      ∀ sub ∈ inode'.dentrys, fs.heap.length ≤ sub ∧ sub < fs'.heap.length := by
  obtain ⟨hdentrys, -⟩ := readDentrys_links h
  rw [hdentrys, hempty, List.append_nil, readDentrys_length h]
  constructor
  · rw [List.pairwise_reverse]
    exact List.pairwise_lt_range'
  · intro sub hsub
    exact List.mem_range'_1.mp (List.mem_reverse.mp hsub)

theorem readInode_stacked {ftype : FileType} {ino : Int}
    (h : readInode fs ftype ino = some (fs', inode)) :
    inode.dentrys.Pairwise (· > ·) ∧
      ∀ sub ∈ inode.dentrys, fs.heap.length ≤ sub ∧ sub < fs'.heap.length := by
  obtain ⟨bytes, -, ⟨-, hrest⟩ | ⟨-, -, data, -, rfl⟩ | ⟨-, -, -, rfl⟩⟩ := readInode_some h
  · exact readDentrys_stacked rfl hrest
  · exact ⟨List.Pairwise.nil, by simp⟩
  · exact ⟨List.Pairwise.nil, by simp⟩

theorem Stacked.load (h : Stacked fs.heap) (hload : loadInode fs ptr = some fs') :
    Stacked fs'.heap := by
  obtain ⟨dentry, hptr, ⟨-, rfl⟩ | ⟨-, fs₁, inode, hread, rfl⟩⟩ := loadInode_some hload
  · exact h
  · obtain ⟨more, hmore, hnull⟩ := readInode_heap hread
    obtain ⟨hsorted, hbounds⟩ := readInode_stacked hread
    have hlt := (List.getElem?_eq_some_iff.mp hptr).1
    have hheap : (fs₁.setInode ptr dentry inode).heap
        = fs.heap.set ptr { dentry with inode := some inode } ++ more := by
      rw [Fs.setInode, hmore, List.set_append_left _ _ hlt]
    apply h.extend hptr hheap
    · intro d hd i hi
      rw [hnull d hd] at hi
      cases hi
    · exact hsorted
    · intro sub hsub
      obtain ⟨hlo, hhi⟩ := hbounds sub hsub
      exact ⟨hlt.trans_le hlo, by rw [Fs.setInode, List.length_set]; exact hhi⟩

theorem Stacked.create (h : Stacked fs.heap) {junk : Junk} (hnull : dentry.inode = none)
    (hcreate : Newfs.create fs ptr dentry junk = some fs') : Stacked fs'.heap := by
  obtain ⟨last, lastInode, hlast, hinode, super, added, super', linked, halloc,
    ⟨ret, hlink⟩, rfl⟩ :=
    create_some hcreate
  have hadded := allocInode_dentry (blksSz fs.disk.szIo) fs.super dentry junk
  rw [halloc] at hadded
  have hlinked := allocDentry_dentrys (blksSz fs.disk.szIo) super lastInode fs.heap.length
  rw [hlink] at hlinked
  simp only at hadded hlinked
  obtain ⟨hsorted, hbounds⟩ := h ptr last lastInode hlast hinode
  have hlt := (List.getElem?_eq_some_iff.mp hlast).1
  apply h.extend hlast rfl
  · intro d hd i hi
    rw [List.mem_singleton.mp hd] at hi
    rcases hadded with rfl | ⟨ino, data, rfl⟩
    · rw [hnull] at hi
      cases hi
    · cases hi
      rfl
  · rw [hlinked]
    exact List.pairwise_cons.mpr ⟨fun sub hsub => (hbounds sub hsub).2, hsorted⟩
  · intro sub hsub
    rw [hlinked] at hsub
    have hlength : ((fs.setInode ptr last linked).heap ++ [added]).length = fs.heap.length + 1 := by
      simp [Fs.setInode]
    simp only [hlength]
    rcases List.mem_cons.mp hsub with rfl | hmem
    · exact ⟨hlt, Nat.lt_succ_self _⟩
    · exact ⟨(hbounds sub hmem).1, Nat.lt_succ_of_lt (hbounds sub hmem).2⟩

theorem Stacked.setInode (h : Stacked fs.heap) (hptr : fs.heap[ptr]? = some dentry)
    {inode' : Inode} (hinode : dentry.inode = some inode) (hsame : inode'.dentrys = inode.dentrys) :
    Stacked (fs.setInode ptr dentry inode').heap := by
  obtain ⟨hsorted, hbounds⟩ := h ptr dentry inode hptr hinode
  apply h.extend hptr (List.append_nil _).symm (by simp)
  · rw [hsame]
    exact hsorted
  · rw [hsame, Fs.setInode, List.length_set]
    exact hbounds

theorem Stacked.make (h : Stacked fs.heap) {maker : Maker} {path : List Byte} {junk : Junk}
    {ret : Int} (hcall : maker.call fs path junk = some (fs', ret)) : Stacked fs'.heap := by
  obtain ⟨fs₁, found, hlookup, ⟨rfl, -⟩ | ⟨-, -, fname, ftype, dentry, -, -, hdentry, hcreate⟩⟩ :=
    Maker.call_some hcall
  · exact h.load (lookup_some hlookup).2.1
  · apply (h.load (lookup_some hlookup).2.1).create _ hcreate
    rw [(newDentry_some hdentry).2]

/-- A new process starts with the dentry of the root and its entries. -/
theorem stacked_init {disk : Disk} (himage : Image disk) {junk : Junk}
    (hinit : init disk junk = some fs) : Stacked fs.heap := by
  obtain ⟨fs₁, inode, more, hread, hheap, hnull, rfl⟩ := init_image_some himage hinit
  obtain ⟨hsorted, hbounds⟩ := readDentrys_stacked rfl hread
  intro ptr dentry inode' hptr hinode'
  rw [heap_setInode (by rw [hheap]; rfl)] at hptr
  have hlength : (fs₁.setInode 0 rootDentry inode).heap.length = fs₁.heap.length := by
    simp [Fs.setInode]
  split at hptr
  · rename_i hzero
    cases hptr
    cases hinode'
    rw [hlength, ← hzero]
    exact ⟨hsorted, hbounds⟩
  · rename_i hne
    rw [hheap] at hptr
    obtain ⟨ptr, rfl⟩ := Nat.exists_eq_succ_of_ne_zero (Ne.symm hne)
    rw [hnull dentry (List.mem_of_getElem? hptr)] at hinode'
    cases hinode'

theorem Stacked.step (h : Stacked fs.heap) (hmounted : Mounted fs) (hstep : Step fs fs') :
    Stacked fs'.heap := by
  obtain ⟨op, hrun⟩ := hstep
  cases op, hrun using Op.run_cases with
  | mkdir path junk hrun ret hcall => exact h.make hcall
  | mknod path mode junk hrun ret hcall => exact h.make hcall
  | write path buf offset hrun ret hwrite =>
      obtain ⟨fs₁, found, hlookup, rfl | ⟨-, dentry, inode, hdentry, hinode, -, -, -, -, rfl⟩⟩ :=
        write_some hwrite
      · exact h.load (lookup_some hlookup).2.1
      · exact (h.load (lookup_some hlookup).2.1).setInode hdentry hinode rfl
  | query op hrun path found hlookup => exact h.load (lookup_some hlookup).2.1
  | remount junk junk' hrun =>
      obtain ⟨disk, hdestroy, hinit⟩ := remount_some hrun
      exact stacked_init (destroy_image hmounted hdestroy).1 hinit

end Steps

/-- The order holds in every state of every run. -/
theorem Run.stacked {szIo : ℕ} (hszIo : szIo ∣ 1024) {fs : Fs} (h : Run szIo fs) :
    Stacked fs.heap := by
  obtain ⟨junk, fs₀, hinit, hreach⟩ := h
  obtain ⟨mapInode, hclaimed, hfresh⟩ := init_blank hszIo junk
  rw [hfresh] at hinit
  cases hinit
  have hstart : Stacked (freshFs szIo junk mapInode).heap := by
    intro ptr dentry inode hptr hinode
    rw [List.mem_singleton.mp (List.mem_of_getElem? hptr)] at hinode
    cases hinode
    exact ⟨List.Pairwise.nil, by simp⟩
  have hboth := reachable_invariant (fun fs => Mounted fs ∧ Stacked fs.heap)
    ⟨freshFs_mounted hszIo junk hclaimed, hstart⟩
    (fun before after hinv hstep => ⟨hinv.1.step hstep, hinv.2.step hinv.1 hstep⟩) hreach
  exact hboth.2

end OperateSystem.Newfs

import OperateSystem.Core.NamedTree
import OperateSystem.Newfs.Creation
import OperateSystem.Newfs.Walk

/-!
# The tree of one mount

The dentries in memory form a tree: the entries of a directory are the dentries on
its sibling list, and the path of a dentry is the list of names from the root to
it.  Every operation of a mount keeps the tree or hangs one new leaf into it.
-/

namespace OperateSystem.Newfs

open OperateSystem.ByteStore
open OperateSystem.Invariant
open OperateSystem.NamedTree

/-- `sub` is on the sibling list of the inode at `ptr`. -/
def Entry (heap : List Dentry) (ptr sub : DentryPtr) : Prop :=
  ∃ dentry inode, heap[ptr]? = some dentry ∧ dentry.inode = some inode ∧ sub ∈ inode.dentrys

def label (heap : List Dentry) (ptr : DentryPtr) : Option (List Byte) :=
  heap[ptr]?.map Dentry.name

/-- The dentry at `ptr` lies at the path `comps`. -/
abbrev Tree (heap : List Dentry) (comps : List (List Byte)) (ptr : DentryPtr) : Prop :=
  Node 0 (Entry heap) (label heap) comps ptr

/-- The dentries form a tree with root 0, and an inode is missing only when none could
be allocated. -/
structure Shaped (fs : Fs) : Prop where
  geometry : Geometry fs.disk
  hole : slice fs.disk.bytes 3040 32 = List.replicate 32 0
  rootDentry : fs.super.rootDentry = 0
  root : ∃ root, fs.heap[0]? = some root
  unloaded : ∀ (ptr : DentryPtr) (dentry : Dentry), fs.heap[ptr]? = some dentry →
    dentry.inode = none → dentry.ino = -1
  entry_dir : ∀ ptr sub, Entry fs.heap ptr sub → ∃ inode, Open fs.heap ptr inode
  entry_lt : ∀ ptr sub, Entry fs.heap ptr sub → sub ≠ 0 ∧ sub < fs.heap.length
  entry_inj : ∀ ptr ptr' sub, Entry fs.heap ptr sub → Entry fs.heap ptr' sub → ptr = ptr'

/-- The tree, the counters of every inode and the superblock with both bitmaps are the
same. -/
structure Unchanged (fs fs' : Fs) : Prop where
  super : fs'.super = fs.super
  tree : ∀ comps ptr, Tree fs'.heap comps ptr ↔ Tree fs.heap comps ptr
  dentry : ∀ (ptr : DentryPtr) (dentry : Dentry), fs.heap[ptr]? = some dentry →
    ∃ dentry', fs'.heap[ptr]? = some dentry' ∧ dentry'.ftype = dentry.ftype ∧
      ∀ inode, dentry.inode = some inode → dentry'.inode = some inode

theorem Unchanged.refl (fs : Fs) : Unchanged fs fs :=
  ⟨rfl, fun _ _ => Iff.rfl, fun _ dentry hptr => ⟨dentry, hptr, rfl, fun _ h => h⟩⟩

section Entries

variable {fs fs' : Fs} {ptr : DentryPtr} {dentry : Dentry}

theorem Entry.lt_length {heap : List Dentry} {sub : DentryPtr} (h : Entry heap ptr sub) :
    ptr < heap.length := by
  obtain ⟨dentry, -, hptr, -⟩ := h
  exact (List.getElem?_eq_some_iff.mp hptr).1

theorem entry_iff_of_inode {heap : List Dentry} {inode : Inode} (hptr : heap[ptr]? = some dentry)
    (hinode : dentry.inode = some inode) (sub : DentryPtr) :
    Entry heap ptr sub ↔ sub ∈ inode.dentrys := by
  constructor
  · rintro ⟨d, i, hd, hi, hsub⟩
    rw [hptr] at hd
    cases hd
    rw [hinode] at hi
    cases hi
    exact hsub
  · exact fun hsub => ⟨dentry, inode, hptr, hinode, hsub⟩

theorem not_entry_of_null {heap : List Dentry} (hptr : heap[ptr]? = some dentry)
    (hnull : dentry.inode = none) (sub : DentryPtr) : ¬ Entry heap ptr sub := by
  rintro ⟨d, inode, hd, hinode, -⟩
  rw [hptr] at hd
  cases hd
  rw [hnull] at hinode
  cases hinode

/-- Storing an inode changes the entries of its own dentry. -/
theorem entry_setInode (hptr : fs.heap[ptr]? = some dentry) (inode : Inode)
    (other sub : DentryPtr) :
    Entry (fs.setInode ptr dentry inode).heap other sub ↔
      if ptr = other then sub ∈ inode.dentrys else Entry fs.heap other sub := by
  have hheap := heap_setInode hptr inode
  by_cases heq : ptr = other
  · subst heq
    rw [if_pos rfl]
    exact entry_iff_of_inode (by rw [hheap, if_pos rfl]) rfl sub
  · simp only [Entry, hheap, if_neg heq]

/-- Storing an inode with the same entries changes no entry. -/
theorem entry_setInode_same {inode : Inode} (hptr : fs.heap[ptr]? = some dentry)
    (hsame : ∀ sub, Entry fs.heap ptr sub ↔ sub ∈ inode.dentrys) (other sub : DentryPtr) :
    Entry (fs.setInode ptr dentry inode).heap other sub ↔ Entry fs.heap other sub := by
  rw [entry_setInode hptr]
  split
  · rename_i heq
    subst heq
    exact (hsame sub).symm
  · rfl

theorem label_of_grows {heap heap' : List Dentry} (hgrows : HeapGrows heap heap') {sub : DentryPtr}
    (hlt : sub < heap.length) : label heap' sub = label heap sub := by
  obtain ⟨d', hd', hsame⟩ := hgrows sub heap[sub] (List.getElem?_eq_getElem hlt)
  rw [label, label, hd', List.getElem?_eq_getElem hlt, Option.map_some, Option.map_some,
    Dentry.name, hsame.fname]
  rfl

/-- A change that keeps the entries keeps the tree. -/
theorem Shaped.tree_congr (h : Shaped fs) (hgrows : HeapGrows fs.heap fs'.heap)
    (hentry : ∀ ptr sub, Entry fs'.heap ptr sub ↔ Entry fs.heap ptr sub)
    (comps : List (List Byte)) (ptr : DentryPtr) :
    Tree fs'.heap comps ptr ↔ Tree fs.heap comps ptr :=
  node_congr hentry fun other sub hsub => label_of_grows hgrows (h.entry_lt other sub hsub).2

/-- A change that keeps the entries and loses no inode keeps the shape. -/
theorem Shaped.of_entry (h : Shaped fs) (hgrows : fs.Grows fs')
    (hlength : fs'.heap.length = fs.heap.length)
    (hunloaded : ∀ (ptr : DentryPtr) (dentry : Dentry), fs'.heap[ptr]? = some dentry →
      dentry.inode = none → dentry.ino = -1)
    (hentry : ∀ ptr sub, Entry fs'.heap ptr sub ↔ Entry fs.heap ptr sub) : Shaped fs' := by
  refine ⟨hgrows.disk ▸ h.geometry, by rw [hgrows.disk]; exact h.hole, ?_, ?_, hunloaded, ?_, ?_,
    ?_⟩
  · rw [hgrows.super.rest]
    exact h.rootDentry
  · obtain ⟨root, hroot⟩ := h.root
    obtain ⟨root', hroot', -⟩ := hgrows.heap 0 root hroot
    exact ⟨root', hroot'⟩
  · intro ptr sub hsub
    obtain ⟨inode, dentry, hptr, hdir, hinode⟩ := h.entry_dir ptr sub ((hentry ptr sub).mp hsub)
    obtain ⟨dentry', hptr', hsame⟩ := hgrows.heap ptr dentry hptr
    obtain ⟨inode', hinode', -⟩ := hsame.inode inode hinode
    exact ⟨inode', dentry', hptr', hsame.ftype.trans hdir, hinode'⟩
  · intro ptr sub hsub
    rw [hlength]
    exact h.entry_lt ptr sub ((hentry ptr sub).mp hsub)
  · intro ptr ptr' sub hsub hsub'
    exact h.entry_inj ptr ptr' sub ((hentry ptr sub).mp hsub) ((hentry ptr' sub).mp hsub')

end Entries

section Creating

variable {fs fs' : Fs} {ptr : DentryPtr} {name : List Byte} {ftype : FileType} {dentry : Dentry}
  {junk : Junk} (hdentry : newDentry name ftype = some dentry)
  (hcreate : create fs ptr dentry junk = some fs')

include hdentry hcreate

/-- The dentry that creation adds has no entries, and no number when no inode was left. -/
theorem create_added :
    ∃ added, fs'.heap[fs.heap.length]? = some added ∧ added.ftype = ftype ∧
      added.fname = dentry.fname ∧ (added.inode = none → added.ino = -1) := by
  obtain ⟨last, lastInode, hlast, -, super, added, super', linked, halloc, -, rfl⟩ :=
    create_some hcreate
  have hadded := allocInode_dentry (blksSz fs.disk.szIo) fs.super dentry junk
  rw [halloc] at hadded
  obtain ⟨-, rfl⟩ := newDentry_some hdentry
  refine ⟨added, by rw [heap_setInode_append hlast, if_pos rfl], ?_⟩
  rcases hadded with rfl | ⟨ino, data, rfl⟩
  · exact ⟨rfl, rfl, fun _ => rfl⟩
  · exact ⟨rfl, rfl, by simp⟩

omit hdentry in
/-- Every other dentry was there before, and one without inode was so before. -/
theorem create_dentry {other : DentryPtr} {d : Dentry} (hother : fs'.heap[other]? = some d) :
    other = fs.heap.length ∨ ∃ d₀, fs.heap[other]? = some d₀ ∧ d₀.Grows d ∧
      (d.inode = none → d₀.inode = none) := by
  have hgrows := create_grows hcreate
  obtain ⟨last, lastInode, hlast, -, super, added, super', linked, -, -, rfl⟩ :=
    create_some hcreate
  have hheap := heap_setInode_append hlast linked added other
  by_cases hnew : other = fs.heap.length
  · exact Or.inl hnew
  · rw [if_neg hnew] at hheap
    have hold : ∃ d₀, fs.heap[other]? = some d₀ ∧ (d.inode = none → d₀.inode = none) := by
      split at hheap
      · rename_i heq
        subst heq
        simp only at hother
        rw [hheap] at hother
        cases hother
        exact ⟨last, hlast, by simp⟩
      · exact ⟨d, hheap.symm.trans hother, fun hnull => hnull⟩
    obtain ⟨d₀, hd₀, hnull⟩ := hold
    obtain ⟨d', hd', hsame⟩ := hgrows.heap other d₀ hd₀
    rw [hother] at hd'
    cases hd'
    exact Or.inr ⟨d₀, hd₀, hsame, hnull⟩

/-- Creation adds one dentry and one entry. -/
theorem create_entry :
    fs'.heap.length = fs.heap.length + 1 ∧
      ∀ other sub, Entry fs'.heap other sub ↔
        Entry fs.heap other sub ∨ (other = ptr ∧ sub = fs.heap.length) := by
  obtain ⟨last, lastInode, hlast, hinode, super, added, super', linked, halloc,
    ⟨ret, hlink⟩, rfl⟩ :=
    create_some hcreate
  have hlinked : linked.dentrys = fs.heap.length :: lastInode.dentrys := by
    have hfront := allocDentry_dentrys (blksSz fs.disk.szIo) super lastInode fs.heap.length
    rwa [hlink] at hfront
  have hadded := allocInode_dentry (blksSz fs.disk.szIo) fs.super dentry junk
  rw [halloc] at hadded
  obtain ⟨-, rfl⟩ := newDentry_some hdentry
  have hheap := heap_setInode_append hlast linked added
  have hptr : ptr ≠ fs.heap.length := Nat.ne_of_lt (List.getElem?_eq_some_iff.mp hlast).1
  refine ⟨by simp [Fs.setInode], ?_⟩
  intro other sub
  by_cases hnew : other = fs.heap.length
  · subst hnew
    refine iff_of_false ?_ ?_
    · rintro ⟨d, i, hd, hi, hsub⟩
      simp only at hd
      rw [hheap, if_pos rfl] at hd
      cases hd
      rcases hadded with rfl | ⟨ino, data, rfl⟩
      · cases hi
      · cases hi
        simp at hsub
    · rintro (hold | ⟨heq, -⟩)
      · exact Nat.lt_irrefl _ hold.lt_length
      · exact hptr heq.symm
  · by_cases heq : ptr = other
    · subst heq
      rw [entry_iff_of_inode (by rw [hheap, if_neg hptr, if_pos rfl]) rfl,
        entry_iff_of_inode hlast hinode, hlinked, List.mem_cons]
      simp only [true_and]
      exact or_comm
    · have hne : ¬ (other = ptr ∧ sub = fs.heap.length) := fun hsame => heq hsame.1.symm
      simp only [hne, or_false]
      simp only [Entry, hheap, if_neg hnew, if_neg heq]

end Creating

section Effects

variable {fs fs' : Fs} (h : Shaped fs)

include h

/-- A dentry has one path. -/
theorem Shaped.tree_unique {comps comps' : List (List Byte)} {ptr : DentryPtr}
    (hptr : Tree fs.heap comps ptr) (hptr' : Tree fs.heap comps' ptr) : comps = comps' :=
  hptr.unique h.entry_inj (fun other hroot => (h.entry_lt other 0 hroot).1 rfl) hptr'

/-- The end of a lookup loads an empty inode, or nothing. -/
theorem Shaped.load {ptr : DentryPtr} (hload : loadInode fs ptr = some fs') :
    fs' = fs ∨ ∃ dentry data, fs.heap[ptr]? = some dentry ∧ dentry.inode = none ∧
      fs' = fs.setInode ptr dentry ⟨0, 0, 0, [], data⟩ := by
  obtain ⟨dentry, hptr, ⟨-, rfl⟩ | ⟨hnull, fs₁, inode, hread, rfl⟩⟩ := loadInode_some hload
  · exact Or.inl rfl
  · obtain ⟨data, hhole⟩ := readInode_hole h.geometry h.hole dentry.ftype
    rw [h.unloaded ptr dentry hptr hnull, hhole] at hread
    cases hread
    exact Or.inr ⟨dentry, data, hptr, hnull, rfl⟩

/-- It succeeds for every dentry. -/
theorem Shaped.exists_load {ptr : DentryPtr} {dentry : Dentry}
    (hptr : fs.heap[ptr]? = some dentry) : ∃ fs', loadInode fs ptr = some fs' := by
  cases hinode : dentry.inode with
  | some inode =>
      refine ⟨fs, ?_⟩
      rw [loadInode, hptr, Option.bind_eq_bind, Option.bind_some, hinode]
      rfl
  | none =>
      obtain ⟨data, hhole⟩ := readInode_hole h.geometry h.hole dentry.ftype
      refine ⟨fs.setInode ptr dentry ⟨0, 0, 0, [], data⟩, ?_⟩
      rw [loadInode, hptr, Option.bind_eq_bind, Option.bind_some, hinode,
        h.unloaded ptr dentry hptr hinode]
      simp [hhole]

theorem Shaped.loadInode_unchanged {ptr : DentryPtr} (hload : loadInode fs ptr = some fs') :
    Shaped fs' ∧ Unchanged fs fs' := by
  have hgrows := loadInode_grows hload
  rcases h.load hload with rfl | ⟨dentry, data, hptr, hnull, rfl⟩
  · exact ⟨h, Unchanged.refl fs'⟩
  · have hheap := heap_setInode hptr ⟨0, 0, 0, [], data⟩
    have hentry := @entry_setInode_same fs ptr dentry ⟨0, 0, 0, [], data⟩ hptr fun sub =>
      iff_of_false (not_entry_of_null hptr hnull sub) (by simp)
    refine ⟨h.of_entry hgrows (by simp [Fs.setInode]) ?_ hentry,
      rfl, h.tree_congr hgrows.heap hentry, ?_⟩
    · intro other d hother hd
      rw [hheap] at hother
      split at hother
      · cases hother
        cases hd
      · exact h.unloaded other d hother hd
    · intro other d hother
      by_cases heq : ptr = other
      · subst heq
        rw [hptr] at hother
        cases hother
        refine ⟨_, (hheap ptr).trans (if_pos rfl), rfl, ?_⟩
        simp [hnull]
      · exact ⟨d, by rw [hheap, if_neg heq, hother], rfl, fun _ hd => hd⟩

/-- A write to a file keeps the shape. -/
theorem Shaped.overlay {ptr : DentryPtr} {dentry : Dentry} {inode : Inode}
    (hptr : fs.heap[ptr]? = some dentry) (hinode : dentry.inode = some inode) (buf : List Byte)
    (offset : Int) : Shaped (fs.setInode ptr dentry (inode.overlay buf offset)) := by
  have hentry := @entry_setInode_same fs ptr dentry (inode.overlay buf offset) hptr
    fun sub => (entry_iff_of_inode hptr hinode sub).trans Iff.rfl
  refine h.of_entry ⟨rfl, Super.Grows.refl _, heapGrows_setInode hptr hinode rfl⟩
    (by simp [Fs.setInode]) ?_ hentry
  intro other d hother hd
  rw [heap_setInode hptr] at hother
  split at hother
  · cases hother
    cases hd
  · exact h.unloaded other d hother hd

/-- Creation keeps the shape. -/
theorem Shaped.create {ptr : DentryPtr} {inode : Inode} (hopen : Open fs.heap ptr inode)
    {name : List Byte} {ftype : FileType} {dentry : Dentry}
    (hdentry : newDentry name ftype = some dentry) {junk : Junk}
    (hcreate : Newfs.create fs ptr dentry junk = some fs') : Shaped fs' := by
  have hgrows := create_grows hcreate
  obtain ⟨hlength, hentry⟩ := create_entry hdentry hcreate
  obtain ⟨added, hadded, -, -, hino⟩ := create_added hdentry hcreate
  have hroot : (0 : ℕ) ≠ fs.heap.length := by
    obtain ⟨root, hroot⟩ := h.root
    exact Nat.ne_of_lt (List.getElem?_eq_some_iff.mp hroot).1
  refine ⟨hgrows.disk ▸ h.geometry, by rw [hgrows.disk]; exact h.hole, ?_, ?_, ?_, ?_, ?_, ?_⟩
  · rw [hgrows.super.rest]
    exact h.rootDentry
  · obtain ⟨root, hroot⟩ := h.root
    obtain ⟨root', hroot', -⟩ := hgrows.heap 0 root hroot
    exact ⟨root', hroot'⟩
  · intro other d hother hnull
    rcases create_dentry hcreate hother with rfl | ⟨d₀, hold, hsame, hkeep⟩
    · rw [hadded] at hother
      cases hother
      exact hino hnull
    · rw [hsame.ino]
      exact h.unloaded other d₀ hold (hkeep hnull)
  · intro other sub hsub
    have hkeep : ∀ {inode : Inode}, Open fs.heap other inode →
        ∃ inode', Open fs'.heap other inode' := by
      rintro inode ⟨d, hd, hdir, hi⟩
      obtain ⟨d', hd', hsame⟩ := hgrows.heap other d hd
      obtain ⟨inode', hi', -⟩ := hsame.inode inode hi
      exact ⟨inode', d', hd', hsame.ftype.trans hdir, hi'⟩
    rcases (hentry other sub).mp hsub with hold | ⟨rfl, -⟩
    · obtain ⟨inode', hopen'⟩ := h.entry_dir other sub hold
      exact hkeep hopen'
    · exact hkeep hopen
  · intro other sub hsub
    rw [hlength]
    rcases (hentry other sub).mp hsub with hold | ⟨-, rfl⟩
    · obtain ⟨hne, hlt⟩ := h.entry_lt other sub hold
      exact ⟨hne, Nat.lt_succ_of_lt hlt⟩
    · exact ⟨hroot.symm, Nat.lt_succ_self _⟩
  · intro other other' sub hsub hsub'
    rcases (hentry other sub).mp hsub with hold | ⟨rfl, rfl⟩ <;>
      rcases (hentry other' _).mp hsub' with hold' | ⟨rfl, heq⟩
    · exact h.entry_inj other other' sub hold hold'
    · subst heq
      exact absurd (h.entry_lt other _ hold).2 (Nat.lt_irrefl _)
    · exact absurd (h.entry_lt other' _ hold').2 (Nat.lt_irrefl _)
    · rfl

end Effects

/-- The calls that create or write. -/
def Op.works : Op → Prop
  | mkdir _ _ | mknod _ _ _ | write _ _ _ => True
  | _ => False

/-- A call that creates or writes. -/
def Works (fs fs' : Fs) : Prop := ∃ op : Op, op.works ∧ op.run fs = some fs'

section Runs

variable {fs fs' : Fs}

/-- A creating call that returns an error has found its path. -/
theorem Maker.call_error {maker : Maker} {path : List Byte} {junk : Junk} {ret : Int}
    (h : maker.call fs path junk = some (fs', ret)) (hret : ret ≠ 0) :
    ∃ found, lookup fs path = some (fs', found) ∧ found.isFind = some true := by
  cases maker with
  | mkdir =>
      obtain ⟨fs₁, found, hlookup, ⟨hfind, rfl, -⟩ | ⟨hmiss, last, hlast, ⟨hfile, -⟩ |
        ⟨-, hzero, -⟩⟩⟩ := mkdir_some h
      · exact ⟨found, hlookup, hfind⟩
      · -- A lookup that finds nothing never ends at a file.
        obtain ⟨rfl, inode, dentry, hdentry, hdir, -⟩ := lookup_miss hlookup hmiss
        rw [hlast] at hdentry
        cases hdentry
        rw [hfile] at hdir
        cases hdir
      · exact absurd hzero hret
  | mknod mode =>
      obtain ⟨fs₁, found, hlookup, ⟨hfind, rfl, -⟩ | ⟨-, hzero, -⟩⟩ := mknod_some h
      · exact ⟨found, hlookup, hfind⟩
      · exact absurd hzero hret

/-- A creating call that returns 0 has created an entry of an open directory. -/
theorem Maker.call_zero {maker : Maker} {path : List Byte} {junk : Junk}
    (h : maker.call fs path junk = some (fs', 0)) :
    ∃ found inode fname ftype dentry, lookup fs path = some (fs, found) ∧
      found.isFind = some false ∧ Open fs.heap found.dentry inode ∧
      getFname path = some fname ∧ maker.fileType = some ftype ∧
      newDentry fname ftype = some dentry ∧
      create fs found.dentry dentry junk = some fs' := by
  obtain ⟨fs₁, found, hlookup, ⟨-, hne⟩ | ⟨hmiss, -, fname, ftype, dentry, hfname, hftype, hdentry,
    hcreate⟩⟩ := Maker.call_some h
  · exact absurd rfl hne
  · obtain ⟨rfl, inode, hopen⟩ := lookup_miss hlookup hmiss
    exact ⟨found, inode, fname, ftype, dentry, hlookup, hmiss, hopen, hfname, hftype, hdentry,
      hcreate⟩

theorem EmptyMount.shaped (h : EmptyMount fs) : Shaped fs := by
  obtain ⟨root, inode, hheap, -, hinode, hempty⟩ := h.root
  have hbare : ∀ ptr sub, ¬ Entry fs.heap ptr sub := by
    rintro ptr sub ⟨dentry, inode', hptr, hinode', hsub⟩
    have hmem := List.mem_of_getElem? hptr
    rw [hheap, List.mem_singleton] at hmem
    rw [hmem, hinode] at hinode'
    cases hinode'
    rw [hempty] at hsub
    cases hsub
  refine ⟨h.geometry, h.hole, h.rootDentry, ⟨root, by rw [hheap]; rfl⟩, ?_, ?_, ?_, ?_⟩
  · intro ptr dentry hptr hnull
    have hmem := List.mem_of_getElem? hptr
    rw [hheap, List.mem_singleton] at hmem
    rw [hmem, hinode] at hnull
    cases hnull
  · exact fun ptr sub hsub => absurd hsub (hbare ptr sub)
  · exact fun ptr sub hsub => absurd hsub (hbare ptr sub)
  · exact fun ptr ptr' sub hsub => absurd hsub (hbare ptr sub)

theorem Shaped.call (h : Shaped fs) {maker : Maker} {path : List Byte} {junk : Junk} {ret : Int}
    (hcall : maker.call fs path junk = some (fs', ret)) : Shaped fs' := by
  by_cases hret : ret = 0
  · subst hret
    obtain ⟨found, inode, fname, ftype, dentry, -, -, hopen, -, -, hdentry, hcreate⟩ :=
      Maker.call_zero hcall
    exact h.create hopen hdentry hcreate
  · obtain ⟨found, hlookup, -⟩ := Maker.call_error hcall hret
    exact (h.loadInode_unchanged (lookup_some hlookup).2.1).1

/-- Every call that creates or writes keeps the shape. -/
theorem Shaped.step (h : Shaped fs) (hstep : Works fs fs') : Shaped fs' := by
  obtain ⟨op, hworks, hrun⟩ := hstep
  cases op with
  | mkdir path junk =>
      obtain ⟨⟨_, ret⟩, hcall, rfl⟩ := Option.map_eq_some_iff.mp hrun
      exact h.call (show Maker.call .mkdir fs path junk = _ from hcall)
  | mknod path mode junk =>
      obtain ⟨⟨_, ret⟩, hcall, rfl⟩ := Option.map_eq_some_iff.mp hrun
      exact h.call (show Maker.call (.mknod mode) fs path junk = _ from hcall)
  | write path buf offset =>
      obtain ⟨⟨_, ret⟩, hwrite, rfl⟩ := Option.map_eq_some_iff.mp hrun
      obtain ⟨fs₁, found, hlookup, rfl | ⟨-, dentry, inode, hptr, hinode, -, -, -, -, rfl⟩⟩ :=
        write_some hwrite
      · exact (h.loadInode_unchanged (lookup_some hlookup).2.1).1
      · exact (h.loadInode_unchanged (lookup_some hlookup).2.1).1.overlay hptr hinode buf offset
  | read path size offset => exact absurd hworks id
  | getattr path stat => exact absurd hworks id
  | readdir path offset => exact absurd hworks id
  | remount junk junk' => exact absurd hworks id

/-- Every state of a mount of an empty file system has the shape. -/
theorem shaped_of_works {szIo : ℕ} (hszIo : szIo ∣ 1024) {fs₀ : Fs} (hstart : FreshMount szIo fs₀)
    (hrun : Reachable Works fs₀ fs) : Shaped fs :=
  reachable_invariant Shaped (hstart.empty hszIo).shaped (fun _ _ => Shaped.step) hrun

end Runs

end OperateSystem.Newfs

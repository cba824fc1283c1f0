import Mathlib.Data.List.TakeWhile
import OperateSystem.Newfs.Lookup
import OperateSystem.Newfs.Neutral

/-!
# Creating entries

The history of one mount of an empty file system, driven by `newfs_mkdir` and
`newfs_mknod`.  As long as the directories above each created entry resolve
exactly, the history describes the dentries, and with it the outcome of every
lookup is known.
-/

namespace OperateSystem.Newfs

open OperateSystem.Bitmap
open OperateSystem.ByteStore
open OperateSystem.Invariant

section Create

variable {fs fs' : Fs} {log : History} (h : Recorded fs log)

include h

theorem Recorded.lt_length {comps : List (List Byte)} {ptr : DentryPtr}
    (hlog : (comps, ptr) ∈ log) : ptr < fs.heap.length := by
  obtain ⟨comps, name, rfl⟩ := (List.eq_nil_or_concat' comps).resolve_left (h.proper _ _ hlog).1
  obtain ⟨dentry, hptr, -⟩ := h.live comps name ptr hlog
  exact (List.getElem?_eq_some_iff.mp hptr).1

omit h in
theorem cstr_padded {name : List Byte} (hname : (0 : Byte) ∉ name) (n : ℕ) :
    cstr (name ++ List.replicate n 0) = name := by
  rw [cstr, List.takeWhile_append_of_pos]
  · have hzeros : List.takeWhile (fun byte : Byte => decide (byte ≠ 0)) (List.replicate n 0)
        = [] := by
      cases n with
      | zero => rfl
      | succ n => simp [List.replicate_succ]
    rw [hzeros, List.append_nil]
  · intro byte hbyte
    simp only [decide_eq_true_eq]
    rintro rfl
    exact hname hbyte

omit h in
theorem zero_notMem_cstr (bytes : List Byte) : (0 : Byte) ∉ cstr bytes := by
  intro hmem
  simpa using List.mem_takeWhile_imp hmem

omit h in
/-- A new entry has its name, and an empty inode or none. -/
theorem allocInode_newDentry {name : List Byte} (hname : (0 : Byte) ∉ name) {ftype : FileType}
    {dentry added : Dentry} (hdentry : newDentry name ftype = some dentry) {blks : Int}
    {super super' : Super} {junk : Junk}
    (halloc : allocInode blks super dentry junk = (super', added)) :
    added.name = name ∧ (added.inode = none → added.ino = -1) ∧
      ∀ inode, added.inode = some inode → inode.dentrys = [] := by
  obtain ⟨-, rfl⟩ := newDentry_some hdentry
  have hadded := allocInode_dentry blks super
    ⟨name ++ List.replicate (maxFileName - name.length) 0, ftype, -1, none⟩ junk
  simp only [halloc] at hadded
  rcases hadded with rfl | ⟨ino, data, rfl⟩
  · exact ⟨cstr_padded hname _, fun _ => rfl, by simp⟩
  · exact ⟨cstr_padded hname _, by simp, by simp⟩

omit h in
theorem names_cons {comps path : List (List Byte)} {name : List Byte} {ptr other : DentryPtr} :
    Names ((comps ++ [name], ptr) :: log) path other ↔
      (path = comps ++ [name] ∧ other = ptr) ∨ Names log path other := by
  simp only [Names, List.mem_cons, Prod.mk.injEq]
  exact or_left_comm

omit h in
/-- An entry of the longer history is the new one or an old one. -/
theorem mem_cons_append {comps path : List (List Byte)} {name next : List Byte}
    {ptr other : DentryPtr} (hmem : (path ++ [next], other) ∈ (comps ++ [name], ptr) :: log) :
    (path = comps ∧ next = name ∧ other = ptr) ∨ (path ++ [next], other) ∈ log := by
  rcases List.mem_cons.mp hmem with heq | hmem
  · simp only [Prod.mk.injEq] at heq
    obtain ⟨hpath, hnext⟩ := List.append_inj' heq.1 rfl
    cases hnext
    exact Or.inl ⟨hpath, rfl, heq.2⟩
  · exact Or.inr hmem

/-- A dentry that the history names is not the next one. -/
theorem Recorded.names_ne_length {path : List (List Byte)} {ptr : DentryPtr}
    (hptr : Names log path ptr) : ptr ≠ fs.heap.length := by
  rcases hptr with ⟨-, rfl⟩ | hmem
  · obtain ⟨root, hroot⟩ := h.root
    exact Nat.ne_of_lt (List.getElem?_eq_some_iff.mp hroot).1
  · exact Nat.ne_of_lt (h.lt_length hmem)

/-- Nothing lies below a path where nothing was created. -/
theorem Recorded.leaf {comps : List (List Byte)} {name : List Byte}
    (hfresh : ∀ sub, (comps ++ [name], sub) ∉ log) (ptr : DentryPtr) (next : List Byte)
    (sub : DentryPtr) :
    (comps ++ [name] ++ [next], sub) ∉ (comps ++ [name], ptr) :: log := by
  intro hmem
  rcases List.mem_cons.mp hmem with heq | hmem
  · have hlen := congrArg (fun entry => entry.1.length) heq
    simp at hlen
  · obtain ⟨parent, -, hparent, -, -⟩ := h.closed _ _ _ hmem
    exact hfresh parent (names_append.mp hparent)

/-- What the creation of `name` below the dentry `ptr` does: the new dentry, which has the name
and an empty inode or none, comes to the end of the heap and to the front of the list at
`ptr`. -/
structure Enters (fs fs' : Fs) (ptr : DentryPtr) (name : List Byte) (last : Dentry)
    (inode linked : Inode) (added : Dentry) : Prop extends fs.Grows fs' where
  found : fs.heap[ptr]? = some last
  inode_eq : last.inode = some inode
  linked_eq : linked.dentrys = fs.heap.length :: inode.dentrys
  length : fs'.heap.length - 1 = fs.heap.length
  heap_eq : ∀ other, fs'.heap[other]? = if other = fs.heap.length then some added
    else if ptr = other then some { last with inode := some linked } else fs.heap[other]?
  added_name : added.name = name
  added_ino : added.inode = none → added.ino = -1
  added_empty : ∀ inode', added.inode = some inode' → inode'.dentrys = []

omit h in
theorem create_enters {name : List Byte} {ptr : DentryPtr} {last : Dentry} {inode : Inode}
    (hname : (0 : Byte) ∉ name) (hlast : fs.heap[ptr]? = some last)
    (hinode : last.inode = some inode) {ftype : FileType} {dentry : Dentry}
    (hdentry : newDentry name ftype = some dentry) {junk : Junk}
    (hcreate : Newfs.create fs ptr dentry junk = some fs') :
    ∃ linked added, Enters fs fs' ptr name last inode linked added := by
  have hgrows := create_grows hcreate
  obtain ⟨last', inode', hlast', hinode', super, added, super', linked, halloc,
    ⟨ret, hlink⟩, rfl⟩ := create_some hcreate
  obtain rfl : last' = last := Option.some.inj (hlast'.symm.trans hlast)
  obtain rfl : inode' = inode := Option.some.inj (hinode'.symm.trans hinode)
  have hlinked : linked.dentrys = fs.heap.length :: inode'.dentrys := by
    have hfront := allocDentry_dentrys (blksSz fs.disk.szIo) super inode' fs.heap.length
    rwa [hlink] at hfront
  obtain ⟨haddedName, haddedIno, haddedEmpty⟩ := allocInode_newDentry hname hdentry halloc
  exact ⟨linked, added, hgrows, hlast, hinode, hlinked, by simp [Fs.setInode],
    heap_setInode_append hlast linked added, haddedName, haddedIno, haddedEmpty⟩

section Enters

variable {comps : List (List Byte)} {name : List Byte} {ptr : DentryPtr} {last : Dentry}
  {inode linked : Inode} {added : Dentry}

/-- The dentry at a path of the longer history: the new one, the one that lists it, or an
untouched one. -/
theorem Recorded.cases_names (henters : Enters fs fs' ptr name last inode linked added)
    (hptr : Names log comps ptr) {path : List (List Byte)} {other : DentryPtr} {d : Dentry}
    (hother : Names ((comps ++ [name], fs.heap.length) :: log) path other)
    (hd : fs'.heap[other]? = some d) :
    (path = comps ++ [name] ∧ other = fs.heap.length ∧ d = added) ∨
    (path = comps ∧ other = ptr ∧ d = { last with inode := some linked }) ∨
    (Names log path other ∧ other ≠ ptr ∧ path ≠ comps ∧ fs.heap[other]? = some d) := by
  rw [henters.heap_eq] at hd
  rcases names_cons.mp hother with ⟨rfl, rfl⟩ | hother'
  · rw [if_pos rfl] at hd
    cases hd
    exact Or.inl ⟨rfl, rfl, rfl⟩
  · rw [if_neg (h.names_ne_length hother')] at hd
    split at hd
    · rename_i heq
      subst heq
      cases hd
      exact Or.inr (Or.inl ⟨h.names_inj hother' hptr, rfl, rfl⟩)
    · rename_i hne
      refine Or.inr (Or.inr ⟨hother', Ne.symm hne, ?_, hd⟩)
      rintro rfl
      exact hne (h.names_uniq hptr hother')

theorem Recorded.dirAt_cons (henters : Enters fs fs' ptr name last inode linked added)
    (hptr : Names log comps ptr) (hdir : last.ftype = .dir) {path : List (List Byte)}
    {next : List Byte} {other : DentryPtr}
    (hmem : (path ++ [next], other) ∈ (comps ++ [name], fs.heap.length) :: log) :
    DirAt fs' ((comps ++ [name], fs.heap.length) :: log) path := by
  rcases mem_cons_append hmem with ⟨rfl, -, -⟩ | hmem
  · have hdirAt : DirAt fs ((path ++ [name], fs.heap.length) :: log) path :=
      ⟨ptr, last, names_cons.mpr (Or.inr hptr), henters.found, hdir⟩
    exact hdirAt.grows henters.heap
  · obtain ⟨parent, d, hparent, hd, hdirParent⟩ := h.closed path next other hmem
    have hdirAt : DirAt fs ((comps ++ [name], fs.heap.length) :: log) path :=
      ⟨parent, d, names_cons.mpr (Or.inr hparent), hd, hdirParent⟩
    exact hdirAt.grows henters.heap

theorem Recorded.uniq_cons (hfresh : ∀ sub, (comps ++ [name], sub) ∉ log)
    {path : List (List Byte)} {other other' : DentryPtr}
    (hmem : (path, other) ∈ (comps ++ [name], fs.heap.length) :: log)
    (hmem' : (path, other') ∈ (comps ++ [name], fs.heap.length) :: log) : other = other' := by
  rcases List.mem_cons.mp hmem with heq | hmem <;> rcases List.mem_cons.mp hmem' with heq' | hmem'
  · cases heq
    cases heq'
    rfl
  · cases heq
    exact absurd hmem' (hfresh other')
  · cases heq'
    exact absurd hmem (hfresh other)
  · exact h.uniq path other other' hmem hmem'

theorem Recorded.inj_cons {path path' : List (List Byte)} {other : DentryPtr}
    (hmem : (path, other) ∈ (comps ++ [name], fs.heap.length) :: log)
    (hmem' : (path', other) ∈ (comps ++ [name], fs.heap.length) :: log) : path = path' := by
  rcases List.mem_cons.mp hmem with heq | hmem <;> rcases List.mem_cons.mp hmem' with heq' | hmem'
  · cases heq
    cases heq'
    rfl
  · cases heq
    exact absurd rfl (h.names_ne_length (Or.inr hmem'))
  · cases heq'
    exact absurd rfl (h.names_ne_length (Or.inr hmem))
  · exact h.inj path path' other hmem hmem'

/-- The list at every dentry holds what the longer history has below it. -/
theorem Recorded.children_cons (henters : Enters fs fs' ptr name last inode linked added)
    (hptr : Names log comps ptr) (hfresh : ∀ sub, (comps ++ [name], sub) ∉ log)
    {path : List (List Byte)} {other : DentryPtr} {d : Dentry} {inode' : Inode}
    (hother : Names ((comps ++ [name], fs.heap.length) :: log) path other)
    (hd : fs'.heap[other]? = some d) (hinode' : d.inode = some inode') (sub : DentryPtr) :
    sub ∈ inode'.dentrys ↔
      ∃ next, (path ++ [next], sub) ∈ (comps ++ [name], fs.heap.length) :: log := by
  rcases h.cases_names henters hptr hother hd with ⟨rfl, rfl, rfl⟩ | ⟨rfl, rfl, rfl⟩ |
    ⟨hother', -, hne, hd'⟩
  · rw [henters.added_empty inode' hinode']
    simp only [List.not_mem_nil, false_iff, not_exists]
    intro next
    exact h.leaf hfresh fs.heap.length next sub
  · cases hinode'
    rw [henters.linked_eq, List.mem_cons,
      h.children path other last inode hptr henters.found henters.inode_eq sub]
    simp only [List.mem_cons, Prod.mk.injEq, List.append_cancel_left_eq, List.cons.injEq,
      and_true, exists_or, exists_eq_left]
  · rw [h.children path other d inode' hother' hd' hinode' sub]
    apply exists_congr
    intro next
    refine ⟨List.mem_cons_of_mem _, ?_⟩
    intro hmem
    exact (mem_cons_append hmem).resolve_left fun hnew => hne hnew.1

/-- Nothing lies below a dentry without an inode. -/
theorem Recorded.barren_cons (henters : Enters fs fs' ptr name last inode linked added)
    (hptr : Names log comps ptr) (hfresh : ∀ sub, (comps ++ [name], sub) ∉ log)
    {path : List (List Byte)} {other : DentryPtr} {d : Dentry}
    (hother : Names ((comps ++ [name], fs.heap.length) :: log) path other)
    (hd : fs'.heap[other]? = some d) (hnull : d.inode = none) (next : List Byte)
    (sub : DentryPtr) : (path ++ [next], sub) ∉ (comps ++ [name], fs.heap.length) :: log := by
  rcases h.cases_names henters hptr hother hd with ⟨rfl, rfl, rfl⟩ | ⟨rfl, rfl, rfl⟩ |
    ⟨hother', -, hne, hd'⟩
  · exact h.leaf hfresh fs.heap.length next sub
  · cases hnull
  · intro hmem
    rcases mem_cons_append hmem with ⟨heq, -, -⟩ | hmem
    · exact hne heq
    · exact h.barren path other d hother' hd' hnull next sub hmem

end Enters

/-- Creating an entry adds it to the history. -/
theorem Recorded.create {comps : List (List Byte)} {name : List Byte} {ptr : DentryPtr}
    {last : Dentry} {inode : Inode} (hname : (0 : Byte) ∉ name) (hptr : Names log comps ptr)
    (hlast : fs.heap[ptr]? = some last) (hdir : last.ftype = .dir)
    (hinode : last.inode = some inode) (hfresh : ∀ sub, (comps ++ [name], sub) ∉ log)
    {ftype : FileType} {dentry : Dentry} (hdentry : newDentry name ftype = some dentry)
    {junk : Junk} (hcreate : Newfs.create fs ptr dentry junk = some fs') :
    Recorded fs' ((comps ++ [name], fs'.heap.length - 1) :: log) := by
  obtain ⟨linked, added, henters⟩ := create_enters hname hlast hinode hdentry hcreate
  rw [henters.length]
  have hdisk : fs'.disk = fs.disk := henters.disk
  refine ⟨hdisk ▸ h.geometry, hdisk ▸ h.hole, ?_, ?_, ?_, ?_, ?_, ?_, ?_, ?_, ?_, ?_⟩
  · rw [henters.super.rest]
    exact h.rootDentry
  · obtain ⟨root, hroot⟩ := h.root
    obtain ⟨root', hroot', -⟩ := henters.heap 0 root hroot
    exact ⟨root', hroot'⟩
  · intro other d hother hnull
    rw [henters.heap_eq] at hother
    split at hother
    · cases hother
      exact henters.added_ino hnull
    · split at hother
      · cases hother
        cases hnull
      · exact h.unloaded other d hother hnull
  · intro path next other hmem
    rcases mem_cons_append hmem with ⟨-, rfl, rfl⟩ | hmem
    · exact ⟨added, by rw [henters.heap_eq, if_pos rfl], henters.added_name⟩
    · obtain ⟨d, hd, hdName⟩ := h.live path next other hmem
      obtain ⟨d', hd', hsame⟩ := henters.heap other d hd
      exact ⟨d', hd', by rw [Dentry.name, hsame.fname, ← Dentry.name, hdName]⟩
  · intro path other hmem
    rcases List.mem_cons.mp hmem with heq | hmem
    · cases heq
      exact ⟨by simp, (h.names_ne_length (Or.inl ⟨rfl, rfl⟩)).symm⟩
    · exact h.proper path other hmem
  · exact fun path next other hmem => h.dirAt_cons henters hptr hdir hmem
  · exact fun path other other' hmem hmem' => h.uniq_cons hfresh hmem hmem'
  · exact fun path path' other hmem hmem' => h.inj_cons hmem hmem'
  · exact fun path other d inode' hother hd hinode' =>
      h.children_cons henters hptr hfresh hother hd hinode'
  · exact fun path other d hother hd hnull =>
      h.barren_cons henters hptr hfresh hother hd hnull

end Create

section Start

/-- A mount of an empty file system: of a blank device, which formats it, or of a
device that was formatted and unmounted before. -/
def FreshMount (szIo : ℕ) (fs : Fs) : Prop :=
  ∃ junk fs₀, init (blankDisk szIo) junk = some fs₀ ∧
    (fs = fs₀ ∨ ∃ junk' disk junk'', destroy fs₀ junk' = some disk ∧ init disk junk'' = some fs)

/-- Nothing but an empty root is there. -/
structure EmptyMount (fs : Fs) : Prop where
  geometry : Geometry fs.disk
  hole : slice fs.disk.bytes 3040 32 = List.replicate 32 0
  rootDentry : fs.super.rootDentry = 0
  root : ∃ root inode, fs.heap = [root] ∧ root.ftype = .dir ∧ root.inode = some inode ∧
    inode.dentrys = []

/-- An empty history describes a root without entries. -/
theorem EmptyMount.recorded {fs : Fs} (h : EmptyMount fs) : Recorded fs [] := by
  obtain ⟨root, inode, hheap, -, hinode, hempty⟩ := h.root
  have honly : ∀ (ptr : DentryPtr) (dentry : Dentry), fs.heap[ptr]? = some dentry →
      dentry = root := by
    intro ptr dentry hptr
    have hmem := List.mem_of_getElem? hptr
    rw [hheap] at hmem
    exact List.mem_singleton.mp hmem
  refine ⟨h.geometry, h.hole, h.rootDentry, ⟨root, by rw [hheap]; rfl⟩, ?_, by simp, by simp,
    by simp, by simp, by simp, ?_, by simp⟩
  · intro ptr dentry hptr hnull
    rw [honly ptr dentry hptr, hinode] at hnull
    cases hnull
  · intro comps ptr dentry inode' _ hptr hinode' sub
    rw [honly ptr dentry hptr, hinode] at hinode'
    cases hinode'
    simp [hempty]

theorem slice_zeros (ofs n : ℕ) : slice (fun _ => (0 : Byte)) ofs n = List.replicate n 0 := by
  simp [slice]

/-- Unmounting a root without entries and mounting it again. -/
theorem remount_bare {fs fs' : Fs} {root : Dentry} {inode : Inode} {junk junk' : Junk} {disk : Disk}
    (hmounted : Mounted fs) (hheap : fs.heap = [root]) (hdir : root.ftype = .dir)
    (hinode : root.inode = some inode) (hino : inode.ino = 0) (hcount : inode.dirCnt = 0)
    (hmap : fs.super.mapData = List.replicate 1024 0) (hdestroy : destroy fs junk = some disk)
    (hinit : init disk junk' = some fs') :
    EmptyMount fs' ∧ fs'.super.mapData = List.replicate 1024 0 ∧
      fs'.heap = [{ rootDentry with inode := some ⟨0, toInt32 inode.size, 0, [], []⟩ }] := by
  obtain ⟨himage, -, hmapData⟩ := destroy_image hmounted hdestroy
  have honly : OnlyRoot fs.heap root := by
    intro ptr sub hsub _
    rw [hheap] at hsub
    exact List.mem_singleton.mp (List.mem_of_getElem? hsub)
  have hrecord : diskInode disk.bytes 0 = ⟨0, toInt32 inode.size, .dir, 0⟩ := by
    rw [diskInode_mountCycle hmounted (by rw [hheap]; rfl) hdir hinode hino honly hdestroy, hcount,
      toInt32_zero]
  rw [hmap] at hmapData
  have hole : slice disk.bytes 3040 32 = List.replicate 32 0 := by
    have hdrop := drop_slice disk.bytes 2048 32 992
    rw [diskMapData] at hmapData
    rw [← hdrop, hmapData, List.drop_replicate]
  obtain ⟨fs₁, inode', more, hread, -, -, rfl⟩ := init_image_some himage hinit
  rw [hrecord] at hread
  cases hread
  have hroot : rootInode disk.bytes = ⟨0, toInt32 inode.size, 0, [], []⟩ := by
    rw [rootInode, hrecord]
  refine ⟨⟨himage.geometry, hole, rfl, _, _, rfl, rfl, rfl, ?_⟩, hmapData, ?_⟩
  · rw [hroot]
  · rw [← hroot]
    rfl

variable {szIo : ℕ} (hszIo : szIo ∣ 1024)

include hszIo

theorem freshFs_empty (junk : Junk) (mapInode : List Byte) :
    EmptyMount (freshFs szIo junk mapInode) := by
  refine ⟨geometry_freshFs hszIo junk mapInode, ?_, rfl, freshRoot, _, rfl, rfl, rfl, rfl⟩
  change slice (overwrite (fun _ => 0) 3072 (freshRecord junk)) 3040 32 = _
  rw [slice_overwrite_of_disjoint _ _ _ (Or.inl (by decide)), slice_zeros]

theorem FreshMount.empty {fs : Fs} (h : FreshMount szIo fs) : EmptyMount fs := by
  obtain ⟨junk, fs₀, hinit, hstart⟩ := h
  obtain ⟨mapInode, hclaimed, hfresh⟩ := init_blank hszIo junk
  rw [hfresh] at hinit
  cases hinit
  rcases hstart with rfl | ⟨junk', disk, junk'', hdestroy, hremount⟩
  · exact freshFs_empty hszIo junk mapInode
  · exact (remount_bare (freshFs_mounted hszIo junk hclaimed) rfl rfl rfl rfl rfl
      (slice_zeros 2048 1024) hdestroy hremount).1

end Start

section Runs

/-- The calls that create entries. -/
inductive Maker
  | mkdir
  | mknod (mode : Mode)

def Maker.call : Maker → Fs → (path : List Byte) → Junk → Option (Fs × Int)
  | mkdir, fs, path, junk => Newfs.mkdir fs path junk
  | mknod mode, fs, path, junk => Newfs.mknod fs path mode junk

/-- The type of the entry that a call makes. -/
def Maker.fileType : Maker → Option FileType
  | mkdir => some .dir
  | mknod mode => mode.fileType

/-- A call of a run creates, writes, remounts or looks something up. -/
theorem Op.run_cases {fs fs' : Fs} {motive : (op : Op) → op.run fs = some fs' → Prop}
    (mkdir : ∀ path junk hrun ret, Maker.mkdir.call fs path junk = some (fs', ret) →
      motive (.mkdir path junk) hrun)
    (mknod : ∀ path mode junk hrun ret, (Maker.mknod mode).call fs path junk = some (fs', ret) →
      motive (.mknod path mode junk) hrun)
    (write : ∀ path buf offset hrun ret, Newfs.write fs path buf offset = some (fs', ret) →
      motive (.write path buf offset) hrun)
    (query : ∀ op hrun path found, lookup fs path = some (fs', found) → motive op hrun)
    (remount : ∀ junk junk' hrun, motive (.remount junk junk') hrun)
    (op : Op) (hrun : op.run fs = some fs') : motive op hrun := by
  cases op with
  | mkdir path junk =>
      obtain ⟨⟨after, ret⟩, hcall, heq⟩ := Option.map_eq_some_iff.mp hrun
      subst heq
      exact mkdir path junk hrun ret hcall
  | mknod path mode junk =>
      obtain ⟨⟨after, ret⟩, hcall, heq⟩ := Option.map_eq_some_iff.mp hrun
      subst heq
      exact mknod path mode junk hrun ret hcall
  | write path buf offset =>
      obtain ⟨⟨after, ret⟩, hwrite, heq⟩ := Option.map_eq_some_iff.mp hrun
      subst heq
      exact write path buf offset hrun ret hwrite
  | read path size offset =>
      obtain ⟨⟨after, ret, out⟩, hread, heq⟩ := Option.map_eq_some_iff.mp hrun
      subst heq
      obtain ⟨found, hlookup⟩ := read_some hread
      exact query _ hrun path found hlookup
  | getattr path stat =>
      obtain ⟨⟨after, ret, stat'⟩, hgetattr, heq⟩ := Option.map_eq_some_iff.mp hrun
      subst heq
      obtain ⟨found, hlookup⟩ := getattr_some hgetattr
      exact query _ hrun path found hlookup
  | readdir path offset =>
      obtain ⟨⟨after, ret, out⟩, hreaddir, heq⟩ := Option.map_eq_some_iff.mp hrun
      subst heq
      obtain ⟨found, hlookup⟩ := readdir_some hreaddir
      exact query _ hrun path found hlookup
  | remount junk junk' => exact remount junk junk' hrun

/-- A creating call in an existing directory that no component of its path is
shadowed on the way to.  A call that returns 0 has made the last dentry. -/
def Creates (before after : Fs × History) : Prop :=
  ∃ maker comps name junk ret, ValidPath (comps ++ [name]) ∧ DirAt before.1 before.2 comps ∧
    Clear before.1 before.2 comps ∧
    Maker.call maker before.1 (pathOf (comps ++ [name])) junk = some (after.1, ret) ∧
    after.2 = if ret = 0 then (comps ++ [name], after.1.heap.length - 1) :: before.2
      else before.2

/-- Both calls look the path up and then return an error or create. -/
theorem Maker.call_some {maker : Maker} {fs fs' : Fs} {path : List Byte} {junk : Junk} {ret : Int}
    (h : maker.call fs path junk = some (fs', ret)) :
    ∃ fs₁ found, lookup fs path = some (fs₁, found) ∧
      ((fs' = fs₁ ∧ ret ≠ 0) ∨
        (found.isFind = some false ∧ ret = 0 ∧ ∃ fname ftype dentry,
          getFname path = some fname ∧ maker.fileType = some ftype ∧
          newDentry fname ftype = some dentry ∧
          create fs₁ found.dentry dentry junk = some fs')) := by
  cases maker with
  | mkdir =>
      obtain ⟨fs₁, found, hlookup, ⟨-, hfs, hret⟩ | ⟨hfind, last, -, ⟨-, hfs, hret⟩ |
        ⟨-, hret, fname, dentry, hfname, hdentry, hcreate⟩⟩⟩ := mkdir_some h
      · exact ⟨fs₁, found, hlookup, Or.inl ⟨hfs, by rw [hret]; decide⟩⟩
      · exact ⟨fs₁, found, hlookup, Or.inl ⟨hfs, by rw [hret]; decide⟩⟩
      · exact ⟨fs₁, found, hlookup,
          Or.inr ⟨hfind, hret, fname, .dir, dentry, hfname, rfl, hdentry, hcreate⟩⟩
  | mknod mode =>
      obtain ⟨fs₁, found, hlookup, ⟨-, hfs, hret⟩ | ⟨hfind, hret, fname, ftype, dentry, hfname,
        hmode, hdentry, hcreate⟩⟩ := mknod_some h
      · exact ⟨fs₁, found, hlookup, Or.inl ⟨hfs, by rw [hret]; decide⟩⟩
      · exact ⟨fs₁, found, hlookup,
          Or.inr ⟨hfind, hret, fname, ftype, dentry, hfname, hmode, hdentry, hcreate⟩⟩

theorem Recorded.step {before after : Fs × History} (h : Recorded before.1 before.2)
    (hstep : Creates before after) : Recorded after.1 after.2 := by
  obtain ⟨fs, log⟩ := before
  obtain ⟨fs', log'⟩ := after
  obtain ⟨maker, comps, name, junk, ret, hvalid, ⟨ptr, last, hptr, hlast, hdir⟩, hclear, hcall,
    hlog⟩ := hstep
  simp only at h hptr hlast hclear hcall hlog ⊢
  have hname : ValidName name := hvalid name (by simp)
  obtain ⟨fs₁, found, hlookup, hresult⟩ := Maker.call_some hcall
  obtain ⟨inode, hinode, hload, hfound⟩ := h.lookup_some hvalid hclear hptr hlast hdir hlookup
  have hlive : ∃ dentry, fs.heap[found.dentry]? = some dentry := by
    obtain ⟨dentry, hdentry, -⟩ := loadInode_some hload
    exact ⟨dentry, hdentry⟩
  obtain ⟨dentry, hdentry⟩ := hlive
  obtain ⟨fs₂, hload₂, h₂⟩ := h.loadInode hdentry
  have hsame : fs₂ = fs₁ := Option.some.inj (hload₂.symm.trans hload)
  subst hsame
  rcases hresult with ⟨rfl, hret⟩ | ⟨hmiss, rfl, fname, ftype, added, hfname, -, hadded, hcreate⟩
  · rw [hlog, if_neg hret]
    exact h₂
  · rcases hfound with ⟨hfind, rfl⟩ | ⟨hit, -, rfl⟩
    · -- The lookup ended at the loaded parent, so it changed nothing.
      have hunchanged : fs₂ = fs := by
        obtain ⟨last', hlast', ⟨-, heq⟩ | ⟨hnull, -⟩⟩ := loadInode_some hload
        · exact heq
        · rw [hlast] at hlast'
          cases hlast'
          rw [hinode] at hnull
          cases hnull
      subst hunchanged
      rw [getFname_pathOf hname.no_slash] at hfname
      cases hfname
      rw [hlog, if_pos rfl]
      exact h.create hname.no_nul hptr hlast hdir hinode
        (h.not_mem_of_findHit hptr hlast hinode hfind) hadded hcreate
    · simp at hmiss

/-- After any creations on a fresh mount that each resolve the directory they
create in, a lookup is exact just when no component of its path is shadowed. -/
theorem lookup_exact_iff {szIo : ℕ} (hszIo : szIo ∣ 1024) {fs₀ fs : Fs} {log : History}
    (hstart : FreshMount szIo fs₀) (hrun : Reachable Creates (fs₀, []) (fs, log))
    {path : List (List Byte)} (hvalid : ValidPath path) (hne : path ≠ [])
    (hparents : ParentsExist fs log path) : Exact fs log path ↔ Clear fs log path := by
  have hrecorded := reachable_invariant (fun state => Recorded state.1 state.2)
    (hstart.empty hszIo).recorded (fun _ _ => Recorded.step) hrun
  exact hrecorded.exact_iff_clear hvalid hne hparents

/-- A fresh device after `mkdir /ab`. -/
def shadowed : Option (Fs × Fs) :=
  (init (blankDisk 512) fun _ => 0).bind fun fs₀ =>
    (mkdir fs₀ (pathOf [[97, 98]]) fun _ => 0).bind fun made =>
      if made.2 = 0 then some (fs₀, made.1) else none

theorem shadowed_heap :
    (shadowed.map fun run => run.2.heap.map fun dentry =>
      (dentry.name, dentry.ftype, dentry.inode.map Inode.dentrys))
      = some [([slash], .dir, some [1]), ([97, 98], .dir, some [])] := by
  decide +kernel

theorem shadowed_lookup :
    (shadowed.map fun run => (lookup run.2 (pathOf [[97]])).map fun result =>
      (result.2.dentry, result.2.isFind)) = some (some (1, some true)) := by
  decide +kernel

theorem shadowed_run {fs₀ fs : Fs} (h : shadowed = some (fs₀, fs)) :
    FreshMount 512 fs₀ ∧ Reachable Creates (fs₀, []) (fs, [([[97, 98]], 1)]) ∧
      DirAt fs [([[97, 98]], 1)] [] := by
  have hheap := shadowed_heap
  rw [h, Option.map_some, Option.some.injEq] at hheap
  have hlength : fs.heap.length = 2 := by simpa using congrArg List.length hheap
  obtain ⟨fs₁, hinit, hrest⟩ := Option.bind_eq_some_iff.mp h
  obtain ⟨made, hmkdir, hmade⟩ := Option.bind_eq_some_iff.mp hrest
  split at hmade
  · rename_i hret
    cases hmade
    have hroot : ∀ log, DirAt fs₀ log [] := by
      intro log
      obtain ⟨mapInode, -, hfresh⟩ := init_blank (show 512 ∣ 1024 by decide) fun _ => 0
      rw [hfresh] at hinit
      cases hinit
      exact ⟨0, freshRoot, Or.inl ⟨rfl, rfl⟩, rfl, rfl⟩
    refine ⟨⟨_, fs₀, hinit, Or.inl rfl⟩, Relation.ReflTransGen.single ?_,
      (hroot _).grows (mkdir_grows hmkdir).heap⟩
    refine ⟨.mkdir, [], [97, 98], fun _ => 0, 0, ?_, hroot [], ?_, ?_, ?_⟩
    · intro name hname
      rw [List.mem_singleton.mp hname]
      exact ⟨by decide, by decide, by decide⟩
    · intro comps name rest heq
      simp at heq
    · rw [← hret]
      exact hmkdir
    · simp [hlength]
  · cases hmade

/-- In that state `/ab` resolves exactly. -/
theorem lookup_exact_shadowing :
    ∃ fs₀ fs, shadowed = some (fs₀, fs) ∧ Exact fs [([[97, 98]], 1)] [[97, 98]] := by
  have hheap := shadowed_heap
  obtain ⟨⟨fs₀, fs⟩, hrun, hheap⟩ := Option.map_eq_some_iff.mp hheap
  obtain ⟨hstart, hreach, hdir⟩ := shadowed_run hrun
  have hparents : ParentsExist fs [([[97, 98]], 1)] [[97, 98]] := by
    intro comps name rest heq
    cases comps with
    | nil => exact hdir
    | cons first comps => simp at heq
  have hvalid : ValidPath [[97, 98]] := by
    intro name hname
    rw [List.mem_singleton.mp hname]
    exact ⟨by decide, by decide, by decide⟩
  refine ⟨fs₀, fs, hrun, ?_⟩
  apply (lookup_exact_iff (by decide) hstart hreach hvalid (by simp) hparents).mpr
  intro comps name rest heq ptr hptr
  obtain ⟨rfl, rfl⟩ : comps = [] ∧ name = [97, 98] := by
    cases comps with
    | nil => exact ⟨rfl, (List.cons.inj heq).1.symm⟩
    | cons first comps => simp at heq
  have hzero : ptr = 0 := by simpa [Names] using hptr
  subst hzero
  have hroot := congrArg (fun entries => entries[0]?) hheap
  have hsub := congrArg (fun entries => entries[1]?) hheap
  simp only [List.getElem?_map] at hroot hsub
  obtain ⟨root, hroot, hrootEq⟩ := Option.map_eq_some_iff.mp hroot
  obtain ⟨sub, hsub, hsubEq⟩ := Option.map_eq_some_iff.mp hsub
  simp only [Prod.mk.injEq] at hrootEq hsubEq
  obtain ⟨inode, hinode, hdentrys⟩ := Option.map_eq_some_iff.mp hrootEq.2.2
  refine ⟨root, inode, hroot, hinode, ?_⟩
  intro newer ptr older sub' hsplit hsub' _ hne
  have hptr : ptr = 1 := by
    rw [hdentrys] at hsplit
    cases newer with
    | nil => simpa using (List.cons.inj hsplit).1.symm
    | cons first newer => simp at hsplit
  rw [hptr, hsub] at hsub'
  cases hsub'
  exact absurd hsubEq.1 hne

/-- `/a` resolves to the entry created at `/ab`. -/
theorem lookup_not_exact :
    ∃ fs₀ fs log, FreshMount 512 fs₀ ∧ Reachable Creates (fs₀, []) (fs, log) ∧
      ValidPath [[97]] ∧ ParentsExist fs log [[97]] ∧ ¬ Exact fs log [[97]] := by
  obtain ⟨⟨fs₀, fs⟩, hrun, hlookup⟩ := Option.map_eq_some_iff.mp shadowed_lookup
  obtain ⟨hstart, hreach, hdir⟩ := shadowed_run hrun
  refine ⟨fs₀, fs, _, hstart, hreach, ?_, ?_, ?_⟩
  · intro name hname
    rw [List.mem_singleton.mp hname]
    exact ⟨by decide, by decide, by decide⟩
  · intro comps name rest heq
    cases comps with
    | nil => exact hdir
    | cons first comps => simp at heq
  · rintro ⟨fs', found, hfound, hresult⟩
    simp only at hlookup
    rw [hfound] at hlookup
    simp only [Option.map_some, Option.some.injEq, Prod.mk.injEq] at hlookup
    rcases hresult with ⟨-, hmem⟩ | ⟨hfalse, -⟩
    · simp at hmem
    · rw [hlookup.2] at hfalse
      cases hfalse

end Runs

end OperateSystem.Newfs

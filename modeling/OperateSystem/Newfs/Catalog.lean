import OperateSystem.Core.NamedTree
import OperateSystem.Newfs.Reload

/-!
# The tree over memory and device

After a mount only the root is in memory and the rest of the tree is on the device;
lookups move it into memory piece by piece.  The tree of a state is read from both:
a directory whose inode is loaded has the entries of its list, any other those that
its number has on the device.  A `Catalog` says abstractly what every number contains,
and a state that represents a catalog has its tree.
-/

namespace OperateSystem.Newfs

open OperateSystem.ByteStore
open OperateSystem.NamedTree

/-- Where a node of the tree is: a dentry in memory, or an entry that has not been read. -/
inductive Cursor
  | memory (ptr : DentryPtr)
  | device (ino : Int) (ftype : FileType)

/-- What the file system shows at a node. -/
inductive View
  | dir
  | file (size : Int) (bytes : List Byte)
  | other

/-- The inode record and the entries of a number, as `newfs_read_inode` reads them. -/
def recordOn (bytes : ℕ → Byte) (ino : Int) : InodeD :=
  InodeD.decode (slice bytes (inoOfs ino).toNat sizeofInodeD.toNat)

def entryOn (bytes : ℕ → Byte) (ino : Int) (i : ℕ) : DentryD :=
  DentryD.decode (slice bytes (daOfs ino + i * sizeofDentryD).toNat sizeofDentryD.toNat)

/-- An edge from the directory `ino` on the device. -/
def EdgeOn (bytes : ℕ → Byte) (ino : Int) (name : List Byte) (sub : Cursor) : Prop :=
  ∃ i : ℕ, (i : Int) < (recordOn bytes ino).dirCnt ∧ name = cstr (entryOn bytes ino i).fname ∧
    sub = .device (entryOn bytes ino i).ino (entryOn bytes ino i).ftype

/-- An edge of the tree. -/
def Edge (fs : Fs) : Cursor → List Byte → Cursor → Prop
  | .memory ptr, name, sub =>
      ∃ dentry, fs.heap[ptr]? = some dentry ∧ dentry.ftype = .dir ∧
        match dentry.inode with
        | some inode => ∃ p ∈ inode.dentrys, ∃ d, fs.heap[p]? = some d ∧ name = d.name ∧
            sub = .memory p
        | none => EdgeOn fs.disk.bytes dentry.ino name sub
  | .device ino ftype, name, sub => ftype = .dir ∧ EdgeOn fs.disk.bytes ino name sub

/-- The file `ino` on the device: its size and its first `size` bytes. -/
def fileOn (bytes : ℕ → Byte) (ino : Int) : Int × List Byte :=
  ((recordOn bytes ino).size, slice bytes (daOfs ino).toNat (recordOn bytes ino).size.toNat)

/-- The file of an inode in memory. -/
def Inode.file (inode : Inode) : Int × List Byte := (inode.size, inode.data.take inode.size.toNat)

def viewAs (ftype : FileType) (content : Int × List Byte) : View :=
  match ftype with
  | .dir => .dir
  | .file => .file content.1 content.2
  | _ => .other

def Cursor.view (fs : Fs) : Cursor → Option View
  | .memory ptr => fs.heap[ptr]?.map fun dentry =>
      match dentry.inode with
      | some inode => viewAs dentry.ftype inode.file
      | none => viewAs dentry.ftype (fileOn fs.disk.bytes dentry.ino)
  | .device ino ftype => some (viewAs ftype (fileOn fs.disk.bytes ino))

/-- The tree of `fs` shows `view` at the path `names`. -/
def Shown (fs : Fs) (names : List (List Byte)) (view : View) : Prop :=
  ∃ cursor : Cursor, Lies (.memory fs.super.rootDentry) (Edge fs) names cursor ∧
    cursor.view fs = some view

/-- Both trees have the same paths, and show the same there. -/
def SameTree (fs fs' : Fs) : Prop := ∀ names view, Shown fs names view ↔ Shown fs' names view

/-- What every number contains: a directory its entries, a file its size and bytes.  No
number is the entry of two directories or has two names, and the root is no entry. -/
structure Catalog where
  entry : ℕ → List Byte → FileType → ℕ → Prop
  file : ℕ → Int × List Byte
  unique : ∀ {ino ino' name name' ftype ftype' sub}, entry ino name ftype sub →
    entry ino' name' ftype' sub → ino = ino' ∧ name = name' ∧ ftype = ftype'
  root_free : ∀ ino name ftype, ¬ entry ino name ftype 0

/-- An edge of the catalog's tree, whose cells are numbers with their types. -/
def Catalog.Edge (catalog : Catalog) (cell : ℕ × FileType) (name : List Byte)
    (sub : ℕ × FileType) : Prop :=
  cell.2 = .dir ∧ catalog.entry cell.1 name sub.2 sub.1

/-- The tree of the catalog shows `view` at the path `names`. -/
def Catalog.Shown (catalog : Catalog) (names : List (List Byte)) (view : View) : Prop :=
  ∃ cell : ℕ × FileType, Lies (0, .dir) catalog.Edge names cell ∧
    viewAs cell.2 (catalog.file cell.1) = view

/-- The device has what the catalog says of the number. -/
structure Archived (catalog : Catalog) (bytes : ℕ → Byte) (ino : ℕ) (ftype : FileType) :
    Prop where
  entry : ftype = .dir → ∀ name t sub, catalog.entry ino name t sub ↔
    ∃ i : ℕ, (i : Int) < (diskInode bytes ino).dirCnt ∧ cstr (diskEntry bytes ino i).fname = name ∧
      (diskEntry bytes ino i).ftype = t ∧ (diskEntry bytes ino i).ino = (sub : ℕ)
  distinct : ftype = .dir → ∀ i j : ℕ, (i : Int) < (diskInode bytes ino).dirCnt →
    (j : Int) < (diskInode bytes ino).dirCnt →
    (diskEntry bytes ino i).ino = (diskEntry bytes ino j).ino → i = j
  file : ftype = .file → catalog.file ino = fileOn bytes ino

/-- The dentry at `ptr` has its inode in memory. -/
structure Loaded (heap : List Dentry) (ptr : ℕ) (dentry : Dentry) (inode : Inode) : Prop where
  here : heap[ptr]? = some dentry
  inode_eq : dentry.inode = some inode

/-- The number of a dentry; that of the root is 0, whatever `newfs_init` leaves in it. -/
def numberAt (ptr : ℕ) (dentry : Dentry) : Int := if ptr = 0 then 0 else dentry.ino

/-- No inode in memory has the number. -/
def Dormant (heap : List Dentry) (ino : ℕ) : Prop :=
  ∀ ptr dentry inode, Loaded heap ptr dentry inode → inode.ino ≠ ino

/-- The list has an entry of this name, type and number. -/
def HasEntry (heap : List Dentry) (ptrs : List DentryPtr) (name : List Byte) (ftype : FileType)
    (sub : ℕ) : Prop :=
  ∃ p ∈ ptrs, ∃ d, heap[p]? = some d ∧ d.name = name ∧ d.ftype = ftype ∧ d.ino = sub

/-- The inode has what the catalog says of its number. -/
structure Keeps (catalog : Catalog) (heap : List Dentry) (ftype : FileType) (inode : Inode) :
    Prop where
  nodup : inode.dentrys.Nodup
  entry : ftype = .dir → ∀ ino : ℕ, inode.ino = ino → ∀ name t sub,
    catalog.entry ino name t sub ↔ HasEntry heap inode.dentrys name t sub
  file : ftype = .file → ∀ ino : ℕ, inode.ino = ino → catalog.file ino = inode.file

/-- Memory has what the catalog says of the inodes that are loaded, and each number once. -/
structure Matches (catalog : Catalog) (heap : List Dentry) : Prop where
  inj : ∀ {ptr ptr' : ℕ} {dentry dentry' : Dentry}, heap[ptr]? = some dentry →
    heap[ptr']? = some dentry' → numberAt ptr dentry = numberAt ptr' dentry' → ptr = ptr'
  number : ∀ {ptr dentry inode}, Loaded heap ptr dentry inode → inode.ino = numberAt ptr dentry
  keeps : ∀ {ptr dentry inode}, Loaded heap ptr dentry inode →
    Keeps catalog heap dentry.ftype inode

/-- Memory and device have what the catalog says. -/
structure Represents (catalog : Catalog) (old kinds : Kinds) (fs : Fs) : Prop where
  charted : Charted old kinds fs
  typed : ∀ ino name ftype sub, catalog.entry ino name ftype sub →
    kinds.kind ino = some .dir ∧ kinds.kind sub = some ftype
  memory : Matches catalog fs.heap
  dormant : ∀ ino ftype, old.kind ino = some ftype → Dormant fs.heap ino →
    Archived catalog fs.disk.bytes ino ftype

theorem recordOn_natCast (bytes : ℕ → Byte) (ino : ℕ) :
    recordOn bytes ino = diskInode bytes ino := by
  rw [recordOn, inoOfs_toNat]
  rfl

theorem entryOn_natCast (bytes : ℕ → Byte) (ino i : ℕ) :
    entryOn bytes ino i = diskEntry bytes ino i := by
  rw [entryOn, daOfs_toNat]
  rfl

theorem numberAt_of_ne {ptr : ℕ} (hne : ptr ≠ 0) (dentry : Dentry) :
    numberAt ptr dentry = dentry.ino := if_neg hne

section Numbers

variable {catalog : Catalog} {old kinds : Kinds} {fs : Fs} (h : Represents catalog old kinds fs)

include h

/-- Every dentry but the root's is an entry of a directory that is loaded. -/
theorem Represents.listed {ptr : ℕ} {dentry : Dentry} (hne : ptr ≠ 0)
    (hptr : fs.heap[ptr]? = some dentry) :
    ∃ sub ino : ℕ, dentry.ino = sub ∧ ¬ Dormant fs.heap ino ∧
      catalog.entry ino dentry.name dentry.ftype sub := by
  obtain ⟨parent, d, inode, hparent, hinode, hmem⟩ :=
    h.charted.reached ptr hne (List.getElem?_eq_some_iff.mp hptr).1
  obtain ⟨d', hparent', hdir⟩ := h.charted.entry_dir parent ptr ⟨d, inode, hparent, hinode, hmem⟩
  rw [hparent] at hparent'
  cases hparent'
  obtain ⟨ino, -, hshape⟩ := h.charted.shape parent d inode hparent hinode
  obtain ⟨-, sub, hsub, -⟩ := h.charted.numbered ptr dentry hne hptr
  refine ⟨sub, ino, hsub, ?_, ?_⟩
  · exact fun hdormant => hdormant parent d inode ⟨hparent, hinode⟩ hshape.ino_eq
  · exact ((h.memory.keeps ⟨hparent, hinode⟩).entry hdir ino hshape.ino_eq _ _ _).mpr
      ⟨ptr, hmem, dentry, hptr, rfl, rfl, hsub⟩

/-- The number of a dentry that is not loaded is dormant. -/
theorem Represents.dormant_of_unloaded {ptr ino : ℕ} {dentry : Dentry}
    (hptr : fs.heap[ptr]? = some dentry) (hnull : dentry.inode = none)
    (hino : numberAt ptr dentry = ino) : Dormant fs.heap ino := by
  intro ptr' dentry' inode hloaded hsame
  have hnumber := (h.memory.number hloaded).symm.trans (hsame.trans hino.symm)
  have heq : ptr' = ptr := h.memory.inj hloaded.here hptr hnumber
  subst heq
  have hinode := hloaded.inode_eq
  rw [← Option.some.inj (hptr.symm.trans hloaded.here), hnull] at hinode
  cases hinode

/-- The entries of a dormant directory are dormant. -/
theorem Represents.dormant_of_entry {ino sub : ℕ} {name : List Byte} {ftype : FileType}
    (hdormant : Dormant fs.heap ino) (hentry : catalog.entry ino name ftype sub) :
    Dormant fs.heap sub := by
  intro ptr dentry inode hloaded hsame
  have hnumber := h.memory.number hloaded
  by_cases hzero : ptr = 0
  · rw [numberAt, if_pos hzero, hsame] at hnumber
    rw [Int.natCast_eq_zero.mp hnumber] at hentry
    exact catalog.root_free _ _ _ hentry
  · rw [numberAt_of_ne hzero, hsame] at hnumber
    obtain ⟨sub', ino', hsub', hawake, hentry'⟩ := h.listed hzero hloaded.here
    have heq : sub' = sub := by omega
    subst heq
    obtain ⟨rfl, -, -⟩ := catalog.unique hentry hentry'
    exact hawake hdormant

end Numbers

section Trees

variable {catalog : Catalog} {old kinds : Kinds} {fs : Fs}

/-- The cursor is at this cell of the catalog's tree. -/
def At (old : Kinds) (fs : Fs) : Cursor → ℕ × FileType → Prop
  | .memory ptr, cell => ∃ dentry, fs.heap[ptr]? = some dentry ∧ dentry.ftype = cell.2 ∧
      numberAt ptr dentry = cell.1
  | .device ino ftype, cell => ino = cell.1 ∧ ftype = cell.2 ∧ old.kind cell.1 = some cell.2 ∧
      Dormant fs.heap cell.1

theorem at_device {ino : Int} {sub : ℕ} {ftype : FileType} (hino : ino = sub)
    (hkind : old.kind sub = some ftype) (hdormant : Dormant fs.heap sub) :
    At old fs (.device ino ftype) (sub, ftype) := ⟨hino, rfl, hkind, hdormant⟩

theorem Catalog.edge_of_entry {ino sub : ℕ} {name : List Byte} {ftype : FileType}
    (hentry : catalog.entry ino name ftype sub) :
    catalog.Edge (ino, .dir) name (sub, ftype) := ⟨rfl, hentry⟩

variable (h : Represents catalog old kinds fs)

include h

/-- Entry `i` of a dormant directory leads to a dormant number. -/
theorem Represents.at_entry {ino i : ℕ} (hkind : old.kind ino = some .dir)
    (hdormant : Dormant fs.heap ino) (hi : (i : Int) < (diskInode fs.disk.bytes ino).dirCnt) :
    ∃ sub : ℕ, (diskEntry fs.disk.bytes ino i).ino = sub ∧
      catalog.entry ino (cstr (diskEntry fs.disk.bytes ino i).fname)
        (diskEntry fs.disk.bytes ino i).ftype sub ∧
      At old fs (.device (diskEntry fs.disk.bytes ino i).ino (diskEntry fs.disk.bytes ino i).ftype)
        (sub, (diskEntry fs.disk.bytes ino i).ftype) := by
  have hstored := h.charted.stored ino .dir hkind
  have harchived := h.dormant ino .dir hkind hdormant
  obtain ⟨sub, hsub, hsubKind⟩ := hstored.entries rfl i hi trivial
  have hentry := (harchived.entry rfl _ _ sub).mpr ⟨i, hi, rfl, rfl, hsub⟩
  exact ⟨sub, hsub, hentry, at_device hsub hsubKind (h.dormant_of_entry hdormant hentry)⟩

/-- The entries of a dormant directory are those that the device has. -/
theorem Represents.edgeOn_iff {ino : ℕ} (hkind : old.kind ino = some .dir)
    (hdormant : Dormant fs.heap ino) (name : List Byte) :
    (∀ sub, EdgeOn fs.disk.bytes ino name sub →
      ∃ cell, catalog.Edge (ino, .dir) name cell ∧ At old fs sub cell) ∧
    ∀ cell, catalog.Edge (ino, .dir) name cell →
      ∃ sub, EdgeOn fs.disk.bytes ino name sub ∧ At old fs sub cell := by
  constructor
  · rintro sub ⟨i, hi, rfl, rfl⟩
    rw [recordOn_natCast] at hi
    rw [entryOn_natCast]
    obtain ⟨m, -, hentry, hat⟩ := h.at_entry hkind hdormant hi
    exact ⟨_, Catalog.edge_of_entry hentry, hat⟩
  · rintro ⟨m, t⟩ ⟨-, hentry⟩
    obtain ⟨i, hi, hname, htype, hm⟩ :=
      ((h.dormant ino .dir hkind hdormant).entry rfl name t m).mp hentry
    obtain ⟨m', hm', -, hat⟩ := h.at_entry hkind hdormant hi
    have heq : m' = m := by omega
    rw [heq, htype] at hat
    refine ⟨.device (diskEntry fs.disk.bytes ino i).ino t, ⟨i, ?_, ?_, ?_⟩, hat⟩
    · rwa [recordOn_natCast]
    · rw [entryOn_natCast, hname]
    · rw [entryOn_natCast, htype]

/-- The entries of a directory in memory are those on its list. -/
theorem Represents.edge_loaded {ptr ino : ℕ} {dentry : Dentry} {inode : Inode}
    (hloaded : Loaded fs.heap ptr dentry inode) (hdir : dentry.ftype = .dir)
    (hino : numberAt ptr dentry = ino) (name : List Byte) :
    (∀ p ∈ inode.dentrys, ∀ d, fs.heap[p]? = some d → name = d.name →
      ∃ cell, catalog.Edge (ino, .dir) name cell ∧ At old fs (.memory p) cell) ∧
    ∀ cell, catalog.Edge (ino, .dir) name cell →
      ∃ p ∈ inode.dentrys, ∃ d, fs.heap[p]? = some d ∧ name = d.name ∧
        At old fs (.memory p) cell := by
  have hentry := (h.memory.keeps hloaded).entry hdir ino ((h.memory.number hloaded).trans hino)
  have hne : ∀ p ∈ inode.dentrys, p ≠ 0 := by
    intro p hp
    have hlt := (h.charted.entry_lt ptr p ⟨dentry, inode, hloaded.here, hloaded.inode_eq, hp⟩).1
    exact Nat.ne_zero_of_lt hlt
  constructor
  · rintro p hp d hd rfl
    obtain ⟨-, m, hm, -⟩ := h.charted.numbered p d (hne p hp) hd
    refine ⟨(m, d.ftype), ⟨rfl, (hentry _ _ _).mpr ⟨p, hp, d, hd, rfl, rfl, hm⟩⟩, d, hd, rfl, ?_⟩
    rw [numberAt_of_ne (hne p hp), hm]
  · rintro ⟨m, t⟩ ⟨-, hin⟩
    obtain ⟨p, hp, d, hd, rfl, rfl, hm⟩ := (hentry _ _ _).mp hin
    refine ⟨p, hp, d, hd, rfl, d, hd, rfl, ?_⟩
    rw [numberAt_of_ne (hne p hp), hm]

/-- A dentry in memory without inode is not the root's, and its number is stored. -/
theorem Represents.unloaded {ptr : ℕ} {dentry : Dentry} (hptr : fs.heap[ptr]? = some dentry)
    (hnull : dentry.inode = none) :
    ∃ ino : ℕ, dentry.ino = ino ∧ numberAt ptr dentry = ino ∧
      old.kind ino = some dentry.ftype ∧ Dormant fs.heap ino := by
  have hne : ptr ≠ 0 := by
    rintro rfl
    obtain ⟨root, inode, hroot, -, hinode, -⟩ := h.charted.mounted.root
    rw [hroot] at hptr
    cases hptr
    rw [hnull] at hinode
    cases hinode
  obtain ⟨-, ino, hino, hkind⟩ := h.charted.unloaded ptr dentry hptr hnull
  have hnumber := (numberAt_of_ne hne dentry).trans hino
  exact ⟨ino, hino, hnumber, hkind, h.dormant_of_unloaded hptr hnull hnumber⟩

/-- The edges at a cursor are those of the catalog at its cell. -/
theorem Represents.edge_iff {cursor : Cursor} {cell : ℕ × FileType} (hat : At old fs cursor cell)
    (name : List Byte) :
    (∀ sub, Edge fs cursor name sub → ∃ cell', catalog.Edge cell name cell' ∧ At old fs sub cell') ∧
    ∀ cell', catalog.Edge cell name cell' →
      ∃ sub, Edge fs cursor name sub ∧ At old fs sub cell' := by
  obtain ⟨ino, ftype⟩ := cell
  cases cursor with
  | device n t =>
      obtain ⟨rfl, rfl, hkind, hdormant⟩ := hat
      constructor
      · rintro sub ⟨rfl, hedge⟩
        exact (h.edgeOn_iff hkind hdormant name).1 sub hedge
      · rintro cell' ⟨hdir, hedge⟩
        simp only at hdir
        subst hdir
        obtain ⟨sub, hsub, hat'⟩ := (h.edgeOn_iff hkind hdormant name).2 cell' ⟨rfl, hedge⟩
        exact ⟨sub, ⟨rfl, hsub⟩, hat'⟩
  | memory ptr =>
      obtain ⟨dentry, hptr, rfl, hnumber⟩ := hat
      cases hinode : dentry.inode with
      | some inode =>
          constructor
          · rintro sub ⟨dentry', hptr', hdir, hedge⟩
            rw [hptr] at hptr'
            cases hptr'
            rw [hinode] at hedge
            obtain ⟨p, hp, d, hd, hname, rfl⟩ := hedge
            rw [hdir]
            exact (h.edge_loaded ⟨hptr, hinode⟩ hdir hnumber name).1 p hp d hd hname
          · rintro cell' ⟨hdir, hedge⟩
            obtain ⟨p, hp, d, hd, hname, hat'⟩ :=
              (h.edge_loaded ⟨hptr, hinode⟩ hdir hnumber name).2 cell' ⟨rfl, hedge⟩
            refine ⟨.memory p, ⟨dentry, hptr, hdir, ?_⟩, hat'⟩
            rw [hinode]
            exact ⟨p, hp, d, hd, hname, rfl⟩
      | none =>
          obtain ⟨m, hm, hnumber', hkind, hdormant⟩ := h.unloaded hptr hinode
          have heq : m = ino := Int.natCast_inj.mp (hnumber'.symm.trans hnumber)
          subst heq
          constructor
          · rintro sub ⟨dentry', hptr', hdir, hedge⟩
            rw [hptr] at hptr'
            cases hptr'
            rw [hinode] at hedge
            simp only [hm] at hedge
            rw [hdir] at hkind ⊢
            exact (h.edgeOn_iff hkind hdormant name).1 sub hedge
          · rintro cell' ⟨hdir, hedge⟩
            simp only at hdir
            rw [hdir] at hkind
            obtain ⟨sub, hsub, hat'⟩ := (h.edgeOn_iff hkind hdormant name).2 cell' ⟨rfl, hedge⟩
            refine ⟨sub, ⟨dentry, hptr, hdir, ?_⟩, hat'⟩
            rw [hinode]
            simp only [hm]
            exact hsub

/-- A cursor shows what the catalog says of its cell. -/
theorem Represents.view_eq {cursor : Cursor} {cell : ℕ × FileType} (hat : At old fs cursor cell) :
    cursor.view fs = some (viewAs cell.2 (catalog.file cell.1)) := by
  have hsame : ∀ {t : FileType} {content : Int × List Byte},
      (t = .file → catalog.file cell.1 = content) →
      viewAs t content = viewAs t (catalog.file cell.1) := by
    intro t content hcontent
    cases t with
    | file => rw [hcontent rfl]
    | dir => rfl
    | symLink => rfl
    | other raw => rfl
  cases cursor with
  | device n t =>
      obtain ⟨rfl, rfl, hkind, hdormant⟩ := hat
      exact congrArg some (hsame (h.dormant cell.1 cell.2 hkind hdormant).file)
  | memory ptr =>
      obtain ⟨dentry, hptr, hftype, hnumber⟩ := hat
      rw [Cursor.view, hptr, Option.map_some, ← hftype]
      cases hinode : dentry.inode with
      | some inode =>
          have hloaded : Loaded fs.heap ptr dentry inode := ⟨hptr, hinode⟩
          have hino := (h.memory.number hloaded).trans hnumber
          exact congrArg some (hsame fun hfile => (h.memory.keeps hloaded).file hfile _ hino)
      | none =>
          obtain ⟨m, hm, hnumber', hkind, hdormant⟩ := h.unloaded hptr hinode
          have heq : m = cell.1 := Int.natCast_inj.mp (hnumber'.symm.trans hnumber)
          subst heq
          simp only [hm]
          exact congrArg some (hsame (h.dormant _ _ hkind hdormant).file)

/-- A state shows the tree of the catalog it represents. -/
theorem Represents.shown_iff (names : List (List Byte)) (view : View) :
    Shown fs names view ↔ catalog.Shown names view := by
  have hroot : At old fs (.memory fs.super.rootDentry) (0, .dir) := by
    obtain ⟨root, -, hptr, hdir, -, -⟩ := h.charted.mounted.root
    rw [h.charted.mounted.rootDentry]
    exact ⟨root, hptr, hdir, rfl⟩
  constructor
  · rintro ⟨cursor, hlies, hview⟩
    obtain ⟨cell, hlies', hat⟩ := hlies.simulate (At old fs) hroot
      fun _ _ name sub hat hedge => (h.edge_iff hat name).1 sub hedge
    rw [h.view_eq hat] at hview
    exact ⟨cell, hlies', Option.some.inj hview⟩
  · rintro ⟨cell, hlies, rfl⟩
    obtain ⟨cursor, hlies', hat⟩ := hlies.simulate (fun cell cursor => At old fs cursor cell) hroot
      fun _ _ name cell' hat hedge => (h.edge_iff hat name).2 cell' hedge
    exact ⟨cursor, hlies', h.view_eq hat⟩

end Trees

/-- States that represent one catalog have the same tree. -/
theorem Represents.sameTree {catalog : Catalog} {old kinds old' kinds' : Kinds} {fs fs' : Fs}
    (h : Represents catalog old kinds fs) (h' : Represents catalog old' kinds' fs') :
    SameTree fs fs' :=
  fun names view => (h.shown_iff names view).trans (h'.shown_iff names view).symm

end OperateSystem.Newfs

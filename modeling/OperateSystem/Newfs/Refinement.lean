import OperateSystem.Newfs.Tree

/-!
# Creation and the abstract tree

What `newfs_mkdir` and `newfs_mknod` should do to the tree, and when they do it.
The new entry goes where the lookup has stopped and is named after the last
component, so the tree grows at the right path only when the lookup stops at the
last component in the directory that the path names; and the only error either
call ever returns is the one for an entry that the lookup has found.
-/

namespace OperateSystem.Newfs

open OperateSystem.Bitmap
open OperateSystem.Invariant
open OperateSystem.NamedTree

/-- There is a node at the path. -/
def Occupied (fs : Fs) (comps : List (List Byte)) : Prop := ∃ ptr, Tree fs.heap comps ptr

/-- There is a directory at the path. -/
def DirPath (fs : Fs) (comps : List (List Byte)) : Prop :=
  ∃ ptr dentry, Tree fs.heap comps ptr ∧ fs.heap[ptr]? = some dentry ∧ dentry.ftype = .dir

/-- A number and a block below the limits are still free. -/
def SpaceLeft (fs : Fs) : Prop :=
  (∃ i : ℕ, (i : Int) < inodeNum ∧ bit fs.super.mapInode i = false) ∧
    ∃ i : ℕ, (i : Int) < dataNum ∧ bit fs.super.mapData i = false

/-- The tree has gained exactly one node, at `path` and of type `ftype`. -/
structure Grafted (fs fs' : Fs) (path : List (List Byte)) (ftype : FileType) : Prop where
  leaf : ∃ leaf added, (∀ comps, ¬ Tree fs.heap comps leaf) ∧
    fs'.heap[leaf]? = some added ∧ added.ftype = ftype ∧
    ∀ comps ptr, Tree fs'.heap comps ptr ↔
      Tree fs.heap comps ptr ∨ (comps = path ∧ ptr = leaf)
  ftypes : ∀ (ptr : DentryPtr) (dentry : Dentry), fs.heap[ptr]? = some dentry →
    ∃ dentry', fs'.heap[ptr]? = some dentry' ∧ dentry'.ftype = dentry.ftype

/-- The call on the path `comps` and then `name` does what it should do to the tree. -/
structure Refines (fs : Fs) (maker : Maker) (ftype : FileType) (comps : List (List Byte))
    (name : List Byte) : Prop where
  creates : DirPath fs comps → ¬ Occupied fs (comps ++ [name]) → SpaceLeft fs → ∀ junk,
    ∃ fs', maker.call fs (pathOf (comps ++ [name])) junk = some (fs', 0) ∧
      Grafted fs fs' (comps ++ [name]) ftype
  found : Occupied fs (comps ++ [name]) → ∀ junk,
    ∃ fs', maker.call fs (pathOf (comps ++ [name])) junk = some (fs', -errorExists) ∧
      Unchanged fs fs'
  orphan : ¬ DirPath fs comps → ∀ junk,
    ∃ fs' ret, maker.call fs (pathOf (comps ++ [name])) junk = some (fs', ret) ∧ ret < 0 ∧
      Unchanged fs fs'

/-- When there is something to create, the lookup comes to the directory that the path
names and finds nothing there that begins with the name; when there is not, it finds
an entry for every component. -/
structure Direct (fs : Fs) (comps : List (List Byte)) (name : List Byte) : Prop where
  creates : DirPath fs comps → ¬ Occupied fs (comps ++ [name]) → SpaceLeft fs →
    name.length ≤ maxFileName ∧ ∃ last inode, Walk fs.heap 0 comps last ∧
      Tree fs.heap comps last ∧ Open fs.heap last inode ∧
      findHit fs.heap name inode.dentrys = none
  errors : Occupied fs (comps ++ [name]) ∨ ¬ DirPath fs comps →
    ∃ last, Walk fs.heap 0 (comps ++ [name]) last

section Paths

variable {fs : Fs}

theorem Open.entry {heap : List Dentry} {ptr sub : DentryPtr} {inode : Inode}
    (h : Open heap ptr inode) (hsub : sub ∈ inode.dentrys) : Entry heap ptr sub := by
  obtain ⟨dentry, hptr, -, hinode⟩ := h
  exact ⟨dentry, inode, hptr, hinode, hsub⟩

/-- Wherever a walk leads, it is at a path with as many components, though not always
the same. -/
theorem Walk.tree {heap : List Dentry} {ptr last : DentryPtr} {comps above : List (List Byte)}
    (h : Walk heap ptr comps last) (hptr : Tree heap above ptr) :
    ∃ below, Tree heap (above ++ below) last ∧ below.length = comps.length := by
  induction h generalizing above with
  | nil ptr => exact ⟨[], by simpa using hptr, rfl⟩
  | @cons ptr hit last inode name comps hopen hhit _ ih =>
      obtain ⟨sub, newer, older, hsub, -, hsplit, -⟩ := findHit_some hhit
      have hentry : Entry heap ptr hit := hopen.entry (by simp [hsplit])
      have hnode : Tree heap (above ++ [sub.name]) hit :=
        .child hptr hentry (by rw [label, hsub]; rfl)
      obtain ⟨below, hlast, hlength⟩ := ih hnode
      exact ⟨sub.name :: below, by simpa using hlast, by simp [hlength]⟩

theorem Shaped.tree_lt (h : Shaped fs) {comps : List (List Byte)} {ptr : DentryPtr}
    (hptr : Tree fs.heap comps ptr) : ptr < fs.heap.length := by
  cases hptr with
  | root =>
      obtain ⟨root, hroot⟩ := h.root
      exact (List.getElem?_eq_some_iff.mp hroot).1
  | child _ hentry _ => exact (h.entry_lt _ _ hentry).2

end Paths

section Calls

variable {fs fs' : Fs} {maker : Maker} {path : List Byte} {found : Lookup} {junk : Junk}

/-- Both calls return the same error when the lookup finds something. -/
theorem Maker.call_of_find (hlookup : lookup fs path = some (fs', found))
    (hfind : found.isFind = some true) :
    maker.call fs path junk = some (fs', -errorExists) := by
  cases maker with
  | mkdir => simp [Maker.call, Newfs.mkdir, hlookup, hfind]
  | mknod mode => simp [Maker.call, Newfs.mknod, hlookup, hfind]

/-- Both calls create in the directory where the lookup has stopped. -/
theorem Maker.call_of_miss {ftype : FileType} (hmaker : maker.fileType = some ftype)
    (hlookup : lookup fs path = some (fs, found)) (hmiss : found.isFind = some false)
    {inode : Inode} (hopen : Open fs.heap found.dentry inode) {fname : List Byte}
    (hfname : getFname path = some fname) {dentry : Dentry}
    (hdentry : newDentry fname ftype = some dentry) :
    maker.call fs path junk = (create fs found.dentry dentry junk).map fun fs' => (fs', 0) := by
  obtain ⟨last, hlast, hdir, -⟩ := hopen
  cases maker with
  | mkdir =>
      cases hmaker
      simp [Maker.call, Newfs.mkdir, hlookup, hmiss, hlast, hdir, hfname, hdentry,
        Option.map_eq_bind]
  | mknod mode =>
      have hmode : mode.fileType = some ftype := hmaker
      simp [Maker.call, Newfs.mknod, hlookup, hmiss, hfname, hmode, hdentry, Option.map_eq_bind]

/-- Creation in an open directory never fails. -/
theorem exists_create {ptr : DentryPtr} {inode : Inode} (hopen : Open fs.heap ptr inode)
    (dentry : Dentry) : ∃ fs', create fs ptr dentry junk = some fs' := by
  obtain ⟨last, hlast, -, hinode⟩ := hopen
  rw [create, hlast, Option.bind_eq_bind, Option.bind_some, hinode]
  exact ⟨_, rfl⟩

end Calls

section Refine

variable {fs : Fs} (h : Shaped fs) {maker : Maker} {ftype : FileType}
  {comps : List (List Byte)} {name : List Byte}

include h

/-- Creation in the directory at `above` adds one node below it. -/
theorem Shaped.tree_create {fs' : Fs} {ptr : DentryPtr} {above : List (List Byte)}
    (hptr : Tree fs.heap above ptr) (hname : (0 : Byte) ∉ name) {dentry : Dentry}
    (hdentry : newDentry name ftype = some dentry) {junk : Junk}
    (hcreate : Newfs.create fs ptr dentry junk = some fs') (names : List (List Byte))
    (other : DentryPtr) :
    Tree fs'.heap names other ↔
      Tree fs.heap names other ∨ (names = above ++ [name] ∧ other = fs.heap.length) := by
  have hgrows := create_grows hcreate
  obtain ⟨-, hentry⟩ := create_entry hdentry hcreate
  obtain ⟨added, hadded, -, haddedName, -⟩ := create_added hdentry hcreate
  have hlabel : label fs'.heap fs.heap.length = some name := by
    obtain ⟨-, rfl⟩ := newDentry_some hdentry
    rw [label, hadded, Option.map_some, Dentry.name, haddedName, cstr_padded hname]
  have hgraft := @node_graft _ _ 0 _ _ (label fs.heap) (label fs'.heap) ptr fs.heap.length name
    hentry (fun cell sub hsub => label_of_grows hgrows.heap (h.entry_lt cell sub hsub).2)
    hlabel (fun sub hsub => Nat.lt_irrefl _ hsub.lt_length) (Nat.ne_of_lt (h.tree_lt hptr))
    names other
  refine hgraft.trans (or_congr_right ?_)
  constructor
  · rintro ⟨names', hnames', rfl, rfl⟩
    exact ⟨by rw [h.tree_unique hnames' hptr], rfl⟩
  · rintro ⟨rfl, rfl⟩
    exact ⟨above, hptr, rfl, rfl⟩

theorem Shaped.grafted {fs' : Fs} {ptr : DentryPtr} {above : List (List Byte)}
    (hptr : Tree fs.heap above ptr) (hname : (0 : Byte) ∉ name) {dentry : Dentry}
    (hdentry : newDentry name ftype = some dentry) {junk : Junk}
    (hcreate : Newfs.create fs ptr dentry junk = some fs') :
    Grafted fs fs' (above ++ [name]) ftype := by
  obtain ⟨added, hadded, haddedType, -⟩ := create_added hdentry hcreate
  refine ⟨⟨fs.heap.length, added, ?_, hadded, haddedType,
    h.tree_create hptr hname hdentry hcreate⟩, ?_⟩
  · exact fun names hnode => Nat.lt_irrefl _ (h.tree_lt hnode)
  · intro other d hother
    obtain ⟨d', hd', hsame⟩ := (create_grows hcreate).heap other d hother
    exact ⟨d', hd', hsame.ftype⟩

/-- A path that finds an entry for every component is reported as existing. -/
theorem Shaped.call_of_walk {path : List (List Byte)} (hvalid : ValidPath path) (hne : path ≠ [])
    {last : DentryPtr} (hwalk : Walk fs.heap 0 path last) (junk : Junk) :
    ∃ fs', maker.call fs (pathOf path) junk = some (fs', -errorExists) ∧ Unchanged fs fs' := by
  obtain ⟨root, hroot⟩ := h.root
  obtain ⟨dentry, hlast⟩ := hwalk.exists_dentry hroot
  obtain ⟨fs', hload⟩ := h.exists_load hlast
  have hlookup := lookup_of_walk h.rootDentry hvalid hne hwalk hload
  exact ⟨fs', Maker.call_of_find hlookup rfl, (h.loadInode_unchanged hload).2⟩

/-- A call that does what it should is direct. -/
theorem Shaped.direct_of_refines (hvalid : ValidPath (comps ++ [name]))
    (hrefines : Refines fs maker ftype comps name) : Direct fs comps name := by
  have hne : comps ++ [name] ≠ [] := by simp
  have hname : ValidName name := hvalid name (by simp)
  have hwalk : ∀ fs' ret, maker.call fs (pathOf (comps ++ [name])) (fun _ => 0) = some (fs', ret) →
      ret ≠ 0 → ∃ last, Walk fs.heap 0 (comps ++ [name]) last := by
    intro fs' ret hcall hret
    obtain ⟨found, hlookup, hfind⟩ := Maker.call_error hcall hret
    obtain ⟨-, ⟨-, hway⟩ | ⟨hfalse, -⟩⟩ := lookup_way h.rootDentry hvalid hne hlookup hfind
    · exact ⟨found.dentry, hway⟩
    · cases hfalse
  constructor
  · intro hdir hfree hspace
    obtain ⟨fs', hcall, hgrafted⟩ := hrefines.creates hdir hfree hspace fun _ => 0
    obtain ⟨found, inode, fname, ftype', dentry, hlookup, hmiss, hopen, hfname, -, hdentry,
      hcreate⟩ := Maker.call_zero hcall
    rw [getFname_pathOf hname.no_slash] at hfname
    cases hfname
    obtain ⟨-, ⟨hfalse, -⟩ | ⟨-, hstops⟩⟩ := lookup_way h.rootDentry hvalid hne hlookup hmiss
    · cases hfalse
    · obtain ⟨before, next, rest, inode', hsplit, hway, hopen', hnone⟩ := hstops.exists_walk
      obtain ⟨above, habove, hlength⟩ := hway.tree (.root)
      rw [List.nil_append] at habove
      -- The node that was made lies below the directory where the lookup stopped.
      obtain ⟨⟨leaf, added, -, -, -, hwanted⟩, -⟩ := hgrafted
      have hmade : Tree fs'.heap (above ++ [name]) fs.heap.length :=
        (h.tree_create habove hname.no_nul hdentry hcreate _ _).mpr (Or.inr ⟨rfl, rfl⟩)
      rcases (hwanted _ _).mp hmade with hold | ⟨hpath, -⟩
      · exact absurd (h.tree_lt hold) (Nat.lt_irrefl _)
      · obtain ⟨rfl, -⟩ := List.append_inj' hpath rfl
        have hbefore : before.length = above.length := hlength.symm
        obtain ⟨rfl, hrest⟩ := List.append_inj hsplit hbefore.symm
        obtain ⟨rfl, rfl⟩ := List.cons.inj hrest
        exact ⟨(newDentry_some hdentry).1, found.dentry, inode', hway, habove, hopen', hnone⟩
  · rintro (hoccupied | horphan)
    · obtain ⟨fs', hcall, -⟩ := hrefines.found hoccupied fun _ => 0
      exact hwalk fs' _ hcall (by decide)
    · obtain ⟨fs', ret, hcall, hret, -⟩ := hrefines.orphan horphan fun _ => 0
      exact hwalk fs' ret hcall (by omega)

/-- A direct call does what it should. -/
theorem Shaped.refines_of_direct (hmaker : maker.fileType = some ftype)
    (hvalid : ValidPath (comps ++ [name])) (hdirect : Direct fs comps name) :
    Refines fs maker ftype comps name := by
  have hne : comps ++ [name] ≠ [] := by simp
  have hname : ValidName name := hvalid name (by simp)
  constructor
  · intro hdir hfree hspace junk
    obtain ⟨hlength, last, inode, hwalk, htree, hopen, hmiss⟩ :=
      hdirect.creates hdir hfree hspace
    have hlookup := lookup_of_stops h.rootDentry hvalid hne (hwalk.stops hopen hmiss)
      hopen.loadInode
    obtain ⟨dentry, hdentry⟩ : ∃ dentry, newDentry name ftype = some dentry := by
      rw [newDentry, if_pos hlength]
      exact ⟨_, rfl⟩
    obtain ⟨fs', hcreate⟩ := @exists_create fs junk last inode hopen dentry
    refine ⟨fs', ?_, h.grafted htree hname.no_nul hdentry hcreate⟩
    rw [Maker.call_of_miss hmaker hlookup rfl hopen (getFname_pathOf hname.no_slash) hdentry,
      hcreate]
    rfl
  · intro hoccupied junk
    obtain ⟨last, hwalk⟩ := hdirect.errors (Or.inl hoccupied)
    exact h.call_of_walk hvalid hne hwalk junk
  · intro horphan junk
    obtain ⟨last, hwalk⟩ := hdirect.errors (Or.inr horphan)
    obtain ⟨fs', hcall, hsame⟩ := @Shaped.call_of_walk fs h maker _ hvalid hne last hwalk junk
    exact ⟨fs', _, hcall, by decide, hsame⟩

end Refine

/-- In every state of a mount of an empty file system that creating and writing calls
lead to, a creating call does what it should to the tree just when it is direct. -/
theorem creation_refines_iff {szIo : ℕ} (hszIo : szIo ∣ 1024) {fs₀ fs : Fs}
    (hstart : FreshMount szIo fs₀) (hrun : Reachable Works fs₀ fs) {maker : Maker}
    {ftype : FileType} (hmaker : maker.fileType = some ftype) {comps : List (List Byte)}
    {name : List Byte} (hvalid : ValidPath (comps ++ [name])) :
    Refines fs maker ftype comps name ↔ Direct fs comps name := by
  have hshaped := shaped_of_works hszIo hstart hrun
  exact ⟨hshaped.direct_of_refines hvalid, hshaped.refines_of_direct hmaker hvalid⟩

/-- The tree of an empty file system is its root. -/
theorem EmptyMount.tree_nil {fs : Fs} (h : EmptyMount fs) {comps : List (List Byte)}
    {ptr : DentryPtr} (hptr : Tree fs.heap comps ptr) : comps = [] := by
  obtain ⟨root, inode, hheap, -, hinode, hempty⟩ := h.root
  cases hptr with
  | root => rfl
  | child _ hentry _ =>
      obtain ⟨dentry, inode', hdentry, hinode', hsub⟩ := hentry
      have hmem := List.mem_of_getElem? hdentry
      rw [hheap, List.mem_singleton] at hmem
      rw [hmem, hinode] at hinode'
      cases hinode'
      rw [hempty] at hsub
      cases hsub

/-- `mkdir /a` on a blank device. -/
def directoryA : Option Fs :=
  (init (blankDisk 512) fun _ => 0).bind fun fs =>
    (mkdir fs (pathOf [[97]]) fun _ => 0).map Prod.fst

theorem directoryA_heap :
    (directoryA.map fun fs => fs.heap.map fun dentry =>
      (dentry.name, dentry.ftype, dentry.inode.map Inode.dentrys))
      = some [([slash], .dir, some [1]), ([97], .dir, some [])] := by
  decide +kernel

theorem directoryA_findHit :
    (directoryA.map fun fs => findHit fs.heap [97] [1]) = some (some 1) := by
  decide +kernel

/-- There the call for `/a/b` is direct. -/
theorem directoryA_direct {fs : Fs} (hfs : directoryA = some fs) : Direct fs [[97]] [98] := by
  have hheap := directoryA_heap
  have hfind := directoryA_findHit
  rw [hfs, Option.map_some, Option.some.injEq] at hheap hfind
  have hat : ∀ ptr : DentryPtr, (fs.heap[ptr]?).map (fun dentry =>
      (dentry.name, dentry.ftype, dentry.inode.map Inode.dentrys))
        = [([slash], .dir, some [1]), ([97], .dir, some [])][ptr]? := by
    intro ptr
    rw [← List.getElem?_map, hheap]
  obtain ⟨root, hroot, hrootEq⟩ := Option.map_eq_some_iff.mp (hat 0)
  obtain ⟨leaf, hleaf, hleafEq⟩ := Option.map_eq_some_iff.mp (hat 1)
  simp only [Prod.mk.injEq] at hrootEq hleafEq
  obtain ⟨rootInode, hrootInode, hrootSubs⟩ := Option.map_eq_some_iff.mp hrootEq.2.2
  obtain ⟨leafInode, hleafInode, hleafSubs⟩ := Option.map_eq_some_iff.mp hleafEq.2.2
  have hopenRoot : Open fs.heap 0 rootInode := ⟨root, hroot, hrootEq.2.1, hrootInode⟩
  have hopenLeaf : Open fs.heap 1 leafInode := ⟨leaf, hleaf, hleafEq.2.1, hleafInode⟩
  have hlabel : label fs.heap 1 = some [97] := by rw [label, hleaf, Option.map_some, hleafEq.1]
  have htree : Tree fs.heap [[97]] 1 :=
    .child .root (hopenRoot.entry (by rw [hrootSubs]; exact List.mem_singleton_self 1)) hlabel
  have hhit : findHit fs.heap [97] rootInode.dentrys = some 1 := by rw [hrootSubs, hfind]
  refine ⟨fun _ _ _ => ⟨by decide, 1, leafInode, .cons hopenRoot hhit (.nil 1), htree, hopenLeaf,
    by rw [hleafSubs]; rfl⟩, ?_⟩
  rintro (⟨ptr, hptr⟩ | horphan)
  · -- The only entry is `/a`.
    have hlast : ∀ path sub, Tree fs.heap path sub → path = [] ∨ path.getLast? = some [97] := by
      intro path sub hsub
      cases hsub with
      | root => exact Or.inl rfl
      | @child names name cell sub _ hentry hname =>
        obtain ⟨dentry, inode, hdentry, hinode, hsub⟩ := hentry
        have hsubs := hat cell
        rw [hdentry, Option.map_some, hinode, Option.map_some] at hsubs
        have hone : sub = 1 := by
          rcases cell with _ | _ | cell <;> simp_all
        rw [hone, hlabel] at hname
        cases hname
        exact Or.inr List.getLast?_concat
    rcases hlast _ ptr hptr with hnil | hname
    · cases hnil
    · cases hname
  · exact absurd ⟨1, leaf, htree, hleaf, hleafEq.2.1⟩ horphan

/-- On a blank device `mkdir /a` and then `mkdir /a/b` adds `/a/b`. -/
theorem creation_refines_nested :
    ∃ fs, directoryA = some fs ∧ Refines fs .mkdir .dir [[97]] [98] := by
  obtain ⟨fs, hfs, -⟩ := Option.map_eq_some_iff.mp directoryA_heap
  obtain ⟨fs₀, hinit, hmkdir⟩ := Option.bind_eq_some_iff.mp hfs
  have hrun : Reachable Works fs₀ fs := by
    refine .single ⟨.mkdir (pathOf [[97]]) fun _ => 0, trivial, hmkdir⟩
  have hvalid : ValidPath ([[97]] ++ [[98]]) := by
    intro name hname
    simp only [List.cons_append, List.nil_append, List.mem_cons, List.not_mem_nil,
      or_false] at hname
    rcases hname with rfl | rfl <;> exact ⟨by decide, by decide, by decide⟩
  exact ⟨fs, hfs, (creation_refines_iff (by decide) ⟨_, _, hinit, Or.inl rfl⟩ hrun rfl hvalid).mpr
    (directoryA_direct hfs)⟩

theorem mkdir_orphan :
    ((init (blankDisk 512) fun _ => 0).bind fun fs =>
      (mkdir fs (pathOf [[120], [121]]) fun _ => 0).map Prod.snd) = some 0 := by
  decide +kernel

/-- There `mkdir /x/y` returns 0 although there is no `/x`. -/
theorem creation_not_refines :
    ∃ fs, init (blankDisk 512) (fun _ => 0) = some fs ∧ FreshMount 512 fs ∧
      ValidPath [[120], [121]] ∧ ¬ Refines fs .mkdir .dir [[120]] [121] := by
  obtain ⟨fs, hinit, hmkdir⟩ := Option.bind_eq_some_iff.mp mkdir_orphan
  obtain ⟨⟨fs', _⟩, hcall, rfl⟩ := Option.map_eq_some_iff.mp hmkdir
  have hstart : FreshMount 512 fs := ⟨_, _, hinit, Or.inl rfl⟩
  refine ⟨fs, hinit, hstart, ?_, ?_⟩
  · intro name hname
    simp only [List.mem_cons, List.not_mem_nil, or_false] at hname
    rcases hname with rfl | rfl <;> exact ⟨by decide, by decide, by decide⟩
  · intro hrefines
    have horphan : ¬ DirPath fs [[120]] := by
      rintro ⟨ptr, -, hptr, -⟩
      have hnil := (hstart.empty (by decide)).tree_nil hptr
      cases hnil
    obtain ⟨fs₁, ret₁, hcall₁, hret, -⟩ := hrefines.orphan horphan fun _ => 0
    have hsame : Maker.call .mkdir fs (pathOf [[120], [121]]) (fun _ => 0) = some (fs', 0) :=
      hcall
    rw [List.singleton_append, hsame] at hcall₁
    cases hcall₁
    exact absurd hret (by decide)

end OperateSystem.Newfs

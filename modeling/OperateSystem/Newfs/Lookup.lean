import OperateSystem.Newfs.Mount
import OperateSystem.Newfs.Path

/-!
# Path resolution

`newfs_lookup` compares a component with the first bytes of each stored name, so
an entry whose name extends the component answers for it when it comes first in
the sibling list.  This module follows the creations of one mount and shows that
resolution is exact for a path just when no component of it is shadowed that
way.
-/

namespace OperateSystem.Newfs

open OperateSystem.ByteStore

/-- The name stored in a dentry. -/
def Dentry.name (dentry : Dentry) : List Byte := cstr dentry.fname

/-- Which dentry each successful creation of the mount has made, latest first. -/
abbrev History := List (List (List Byte) × DentryPtr)

/-- The dentry that was created at a path; the root is dentry 0. -/
def Names (log : History) (comps : List (List Byte)) (ptr : DentryPtr) : Prop :=
  (comps = [] ∧ ptr = 0) ∨ (comps, ptr) ∈ log

/-- Every entry that begins with `name` without being called `name` comes after an
entry that is. -/
def Unshadowed (heap : List Dentry) (dentrys : List DentryPtr) (name : List Byte) : Prop :=
  ∀ newer ptr older sub, dentrys = newer ++ ptr :: older → heap[ptr]? = some sub →
    name <+: sub.chars → sub.name ≠ name →
    ∃ ptr' ∈ newer, ∃ sub', heap[ptr']? = some sub' ∧ sub'.name = name

/-- The directory at `comps` is loaded and `name` is not shadowed in it. -/
def ClearAt (fs : Fs) (log : History) (comps : List (List Byte)) (name : List Byte) : Prop :=
  ∀ ptr, Names log comps ptr → ∃ dentry inode, fs.heap[ptr]? = some dentry ∧
    dentry.inode = some inode ∧ Unshadowed fs.heap inode.dentrys name

/-- No component of the path is shadowed. -/
def Clear (fs : Fs) (log : History) (path : List (List Byte)) : Prop :=
  ∀ comps name rest, path = comps ++ name :: rest → ClearAt fs log comps name

/-- There is a directory at `comps`. -/
def DirAt (fs : Fs) (log : History) (comps : List (List Byte)) : Prop :=
  ∃ ptr dentry, Names log comps ptr ∧ fs.heap[ptr]? = some dentry ∧ dentry.ftype = .dir

theorem DirAt.grows {fs fs' : Fs} {log : History} {comps : List (List Byte)}
    (h : DirAt fs log comps) (hgrows : HeapGrows fs.heap fs'.heap) : DirAt fs' log comps := by
  obtain ⟨ptr, dentry, hnames, hptr, hdir⟩ := h
  obtain ⟨dentry', hptr', hsame⟩ := hgrows ptr dentry hptr
  exact ⟨ptr, dentry', hnames, hptr', hsame.ftype.trans hdir⟩

/-- Every proper prefix of the path names an existing directory. -/
def ParentsExist (fs : Fs) (log : History) (path : List (List Byte)) : Prop :=
  ∀ comps name rest, path = comps ++ name :: rest → DirAt fs log comps

/-- Resolution of the path is exact: it finds the dentry created at the path, or
reports that there is none and returns the parent directory. -/
def Exact (fs : Fs) (log : History) (path : List (List Byte)) : Prop :=
  ∃ fs' found, lookup fs (pathOf path) = some (fs', found) ∧
    ((found.isFind = some true ∧ (path, found.dentry) ∈ log) ∨
      (found.isFind = some false ∧ (∀ ptr, (path, ptr) ∉ log) ∧
        Names log path.dropLast found.dentry))

section Hits

theorem Dentry.hits_iff {name : List Byte} {dentry : Dentry} :
    dentry.hits name = true ↔ name <+: dentry.chars := List.isPrefixOf_iff_prefix

theorem Dentry.hits_name (dentry : Dentry) : dentry.hits dentry.name = true :=
  Dentry.hits_iff.mpr ((List.takeWhile_prefix _).trans (List.prefix_append _ _))

variable {heap : List Dentry} {dentrys : List DentryPtr} {name : List Byte}

theorem findHit_none (h : findHit heap name dentrys = none) {ptr : DentryPtr}
    (hptr : ptr ∈ dentrys) {sub : Dentry} (hsub : heap[ptr]? = some sub) :
    sub.hits name = false := by
  rw [findHit, List.find?_eq_none] at h
  simpa [hsub] using h ptr hptr

/-- A hit is the first sibling that hits. -/
theorem findHit_some {hit : DentryPtr} (h : findHit heap name dentrys = some hit) :
    ∃ sub newer older, heap[hit]? = some sub ∧ sub.hits name = true ∧
      dentrys = newer ++ hit :: older ∧
      ∀ ptr ∈ newer, ∀ sub', heap[ptr]? = some sub' → sub'.hits name = false := by
  rw [findHit, List.find?_eq_some_iff_append] at h
  obtain ⟨hhit, newer, older, hsplit, hnewer⟩ := h
  cases hsub : heap[hit]? with
  | none => simp [hsub] at hhit
  | some sub =>
      refine ⟨sub, newer, older, rfl, by simpa [hsub] using hhit, hsplit, ?_⟩
      intro ptr hptr sub' hsub'
      simpa [hsub'] using hnewer ptr hptr

/-- `name` is not shadowed just when the sibling that answers for it, if any,
has exactly that name. -/
theorem unshadowed_iff :
    Unshadowed heap dentrys name ↔
      ∀ hit sub, findHit heap name dentrys = some hit → heap[hit]? = some sub →
        sub.name = name := by
  constructor
  · intro hclear hit sub hhit hsub
    obtain ⟨sub₀, newer, older, hsub₀, hhits, hsplit, hnewer⟩ := findHit_some hhit
    have hsame : sub₀ = sub := Option.some.inj (hsub₀.symm.trans hsub)
    subst hsame
    by_contra hne
    obtain ⟨ptr, hptr, sub', hsub', hexact⟩ :=
      hclear newer hit older sub₀ hsplit hsub (Dentry.hits_iff.mp hhits) hne
    have hmiss := hnewer ptr hptr sub' hsub'
    have hhit' : sub'.hits name = true := hexact ▸ sub'.hits_name
    rw [hmiss] at hhit'
    cases hhit'
  · intro hfirst newer ptr older sub hsplit hsub hprefix hne
    have hhits : sub.hits name = true := Dentry.hits_iff.mpr hprefix
    cases hfind : findHit heap name dentrys with
    | none =>
        have hmiss := findHit_none hfind (show ptr ∈ dentrys by simp [hsplit]) hsub
        rw [hhits] at hmiss
        cases hmiss
    | some hit =>
        obtain ⟨sub', newer', older', hsub', -, hsplit', hnewer'⟩ := findHit_some hfind
        have hexact := hfirst hit sub' hfind hsub'
        refine ⟨hit, ?_, sub', hsub', hexact⟩
        -- The hit is not `ptr` and cannot come after it, since `ptr` hits as well.
        rw [hsplit] at hsplit'
        rcases List.append_eq_append_iff.mp hsplit' with ⟨mid, hmid, hrest⟩ | ⟨mid, hmid, hrest⟩
        · cases mid with
          | nil =>
              simp only [List.nil_append, List.cons.injEq] at hrest
              rw [← hrest.1, hsub] at hsub'
              cases hsub'
              exact absurd hexact hne
          | cons first mid =>
              simp only [List.cons_append, List.cons.injEq] at hrest
              have hmiss := hnewer' ptr (by simp [hmid, hrest.1]) sub hsub
              rw [hhits] at hmiss
              cases hmiss
        · cases mid with
          | nil =>
              simp only [List.nil_append, List.cons.injEq] at hrest
              rw [hrest.1, hsub] at hsub'
              cases hsub'
              exact absurd hexact hne
          | cons first mid =>
              simp only [List.cons_append, List.cons.injEq] at hrest
              simp [hmid, hrest.1]

end Hits

/-- What the history of a mount says about the dentries. -/
structure Recorded (fs : Fs) (log : History) : Prop where
  geometry : Geometry fs.disk
  /-- The record an unallocated number leads to is blank. -/
  hole : slice fs.disk.bytes 3040 32 = List.replicate 32 0
  rootDentry : fs.super.rootDentry = 0
  root : ∃ root, fs.heap[0]? = some root
  /-- An inode is missing only when none could be allocated. -/
  unloaded : ∀ (ptr : DentryPtr) (dentry : Dentry), fs.heap[ptr]? = some dentry →
    dentry.inode = none → dentry.ino = -1
  live : ∀ comps name ptr, (comps ++ [name], ptr) ∈ log →
    ∃ dentry, fs.heap[ptr]? = some dentry ∧ dentry.name = name
  proper : ∀ comps ptr, (comps, ptr) ∈ log → comps ≠ [] ∧ ptr ≠ 0
  closed : ∀ comps name ptr, (comps ++ [name], ptr) ∈ log → DirAt fs log comps
  uniq : ∀ comps ptr ptr', (comps, ptr) ∈ log → (comps, ptr') ∈ log → ptr = ptr'
  inj : ∀ comps comps' ptr, (comps, ptr) ∈ log → (comps', ptr) ∈ log → comps = comps'
  children : ∀ comps ptr dentry inode, Names log comps ptr → fs.heap[ptr]? = some dentry →
    dentry.inode = some inode →
    ∀ sub, sub ∈ inode.dentrys ↔ ∃ name, (comps ++ [name], sub) ∈ log
  barren : ∀ comps ptr dentry, Names log comps ptr → fs.heap[ptr]? = some dentry →
    dentry.inode = none → ∀ name sub, (comps ++ [name], sub) ∉ log

section Walk

variable {fs : Fs} {log : History}

theorem Recorded.names_uniq (h : Recorded fs log) {comps : List (List Byte)}
    {ptr ptr' : DentryPtr} (hptr : Names log comps ptr) (hptr' : Names log comps ptr') :
    ptr = ptr' := by
  rcases hptr with ⟨rfl, rfl⟩ | hptr <;> rcases hptr' with ⟨hnil, rfl⟩ | hptr'
  · rfl
  · exact absurd rfl (h.proper _ _ hptr').1
  · exact absurd hnil (h.proper _ _ hptr).1
  · exact h.uniq _ _ _ hptr hptr'

theorem Recorded.names_inj (h : Recorded fs log) {comps comps' : List (List Byte)}
    {ptr : DentryPtr} (hptr : Names log comps ptr) (hptr' : Names log comps' ptr) :
    comps = comps' := by
  rcases hptr with ⟨rfl, rfl⟩ | hptr <;> rcases hptr' with ⟨rfl, hzero⟩ | hptr'
  · rfl
  · exact absurd rfl (h.proper _ _ hptr').2
  · exact absurd hzero (h.proper _ _ hptr).2
  · exact h.inj _ _ _ hptr hptr'

theorem names_append {comps : List (List Byte)} {name : List Byte} {ptr : DentryPtr} :
    Names log (comps ++ [name]) ptr ↔ (comps ++ [name], ptr) ∈ log := by
  simp [Names]

theorem prefixes_append {P : List (List Byte) → List Byte → Prop} {comps : List (List Byte)}
    {name : List Byte} :
    (∀ before next rest, comps ++ [name] = before ++ next :: rest → P before next) ↔
      (∀ before next rest, comps = before ++ next :: rest → P before next) ∧ P comps name := by
  constructor
  · intro hall
    refine ⟨?_, hall comps name [] rfl⟩
    intro before next rest heq
    exact hall before next (rest ++ [name]) (by simp [heq])
  · rintro ⟨hall, hlast⟩ before next rest heq
    induction rest using List.reverseRecOn with
    | nil =>
        obtain ⟨rfl, hname⟩ := List.append_inj' heq rfl
        cases hname
        exact hlast
    | append_singleton rest last _ =>
        rw [← List.cons_append, ← List.append_assoc] at heq
        obtain ⟨hcomps, -⟩ := List.append_inj' heq rfl
        exact hall before next rest hcomps

theorem clear_append {comps : List (List Byte)} {name : List Byte} :
    Clear fs log (comps ++ [name]) ↔ Clear fs log comps ∧ ClearAt fs log comps name :=
  prefixes_append

theorem parentsExist_append {comps : List (List Byte)} {name : List Byte} :
    ParentsExist fs log (comps ++ [name]) ↔ ParentsExist fs log comps ∧ DirAt fs log comps :=
  prefixes_append (P := fun before _ => DirAt fs log before)

/-- The directories above an existing directory exist as well. -/
theorem Recorded.parentsExist (h : Recorded fs log) {comps : List (List Byte)}
    (hdir : DirAt fs log comps) : ParentsExist fs log comps := by
  induction comps using List.reverseRecOn with
  | nil =>
      intro comps name rest heq
      simp at heq
  | append_singleton comps name ih =>
      obtain ⟨ptr, dentry, hptr, -, -⟩ := hdir
      have hparent := h.closed comps name ptr (names_append.mp hptr)
      exact parentsExist_append.mpr ⟨ih hparent, hparent⟩

/-- One turn of the lookup. -/
theorem lookupLoop_cons {heap : List Dentry} {totalLvl lvl : ℕ} {fname : List Byte}
    {fnames : List (List Byte)} {ptr : DentryPtr} {dentry : Dentry} {inode : Inode}
    {acc : Option DentryPtr × Option Bool} (hptr : heap[ptr]? = some dentry)
    (hinode : dentry.inode = some inode) :
    lookupLoop heap totalLvl (fname :: fnames) lvl ptr acc =
      if dentry.ftype = .file ∧ lvl + 1 < totalLvl then some (some ptr, acc.2)
      else if dentry.ftype = .dir then
        match findHit heap fname inode.dentrys with
        | none => some (some ptr, some false)
        | some hit =>
            if lvl + 1 = totalLvl then some (some hit, some true)
            else lookupLoop heap totalLvl fnames (lvl + 1) hit acc
      else lookupLoop heap totalLvl fnames (lvl + 1) ptr acc := by
  simp only [lookupLoop, hptr, hinode, Option.bind_eq_bind, Option.bind_some]
  rfl

/-- One turn of the lookup at a loaded directory. -/
theorem lookupLoop_dir {heap : List Dentry} {totalLvl lvl : ℕ} {fname : List Byte}
    {fnames : List (List Byte)} {ptr : DentryPtr} {dentry : Dentry} {inode : Inode}
    {acc : Option DentryPtr × Option Bool} (hptr : heap[ptr]? = some dentry)
    (hinode : dentry.inode = some inode) (hdir : dentry.ftype = .dir) :
    lookupLoop heap totalLvl (fname :: fnames) lvl ptr acc =
      match findHit heap fname inode.dentrys with
      | none => some (some ptr, some false)
      | some hit =>
          if lvl + 1 = totalLvl then some (some hit, some true)
          else lookupLoop heap totalLvl fnames (lvl + 1) hit acc := by
  rw [lookupLoop_cons hptr hinode, if_neg (by simp [hdir]), if_pos hdir]

/-- A lookup that ends at a dentry in memory. -/
theorem lookup_of_loop {fs : Fs} {path : List Byte} {ptr : DentryPtr} {isFind : Option Bool}
    (hloop : lookupLoop fs.heap (calcLvl path) (tokens path) 0 fs.super.rootDentry
      (if calcLvl path = 0 then (some fs.super.rootDentry, some true) else (none, none))
      = some (some ptr, isFind)) {dentry : Dentry} (hptr : fs.heap[ptr]? = some dentry)
    (hinode : dentry.inode.isSome) :
    lookup fs path = some (fs, ⟨ptr, isFind, decide (calcLvl path = 0)⟩) := by
  have hload : loadInode fs ptr = some fs := by
    rw [loadInode, hptr, Option.bind_eq_bind, Option.bind_some, if_pos hinode]
    rfl
  simp only [lookup, hloop, Option.bind_eq_bind, Option.bind_some, hload]
  rfl

/-- Along a clear path the lookup goes from directory to directory. -/
theorem lookupLoop_walk (h : Recorded fs log) {comps : List (List Byte)}
    (hclear : Clear fs log comps) (hparents : ParentsExist fs log comps) {ptr : DentryPtr}
    (hptr : Names log comps ptr) {totalLvl : ℕ} (hlvl : comps.length < totalLvl)
    (rest : List (List Byte)) (acc : Option DentryPtr × Option Bool) :
    lookupLoop fs.heap totalLvl (comps ++ rest) 0 0 acc
      = lookupLoop fs.heap totalLvl rest comps.length ptr acc := by
  induction comps using List.reverseRecOn generalizing ptr rest with
  | nil =>
      have hzero : ptr = 0 := h.names_uniq hptr (Or.inl ⟨rfl, rfl⟩)
      rw [hzero]
      rfl
  | append_singleton comps name ih =>
      rw [List.length_append, List.length_singleton] at hlvl
      obtain ⟨hclear, hclearAt⟩ := clear_append.mp hclear
      obtain ⟨hparents, parent, dentry, hparent, hdentry, hdir⟩ := parentsExist_append.mp hparents
      obtain ⟨dentry', inode, hdentry', hinode, hunshadowed⟩ := hclearAt parent hparent
      have hsame : dentry' = dentry := Option.some.inj (hdentry'.symm.trans hdentry)
      subst hsame
      have hwalk := ih hclear hparents hparent (by omega) ([name] ++ rest)
      rw [List.append_assoc, hwalk, List.singleton_append, lookupLoop_dir hdentry hinode hdir]
      have hlog : (comps ++ [name], ptr) ∈ log := names_append.mp hptr
      have hmem : ptr ∈ inode.dentrys :=
        (h.children comps parent dentry' inode hparent hdentry hinode ptr).mpr ⟨name, hlog⟩
      obtain ⟨sub, hsub, hsubName⟩ := h.live comps name ptr hlog
      cases hfind : findHit fs.heap name inode.dentrys with
      | none =>
          have hmiss := findHit_none hfind hmem hsub
          have hhit : sub.hits name = true := hsubName ▸ sub.hits_name
          rw [hmiss] at hhit
          cases hhit
      | some hit =>
          obtain ⟨sub', newer, older, hsub', -, hsplit, -⟩ := findHit_some hfind
          have hexact : sub'.name = name :=
            unshadowed_iff.mp hunshadowed hit sub' hfind hsub'
          obtain ⟨name', hlog'⟩ := (h.children comps parent dentry' inode hparent hdentry hinode
            hit).mp (by simp [hsplit])
          obtain ⟨sub'', hsub'', hname''⟩ := h.live comps name' hit hlog'
          have hsame : sub'' = sub' := Option.some.inj (hsub''.symm.trans hsub')
          have heq : name' = name := by rw [← hname'', hsame, hexact]
          rw [heq] at hlog'
          have hhit : hit = ptr := h.uniq _ _ _ hlog' hlog
          have hne : comps.length + 1 ≠ totalLvl := by omega
          simp only [hne, if_false, hhit, List.length_append, List.length_singleton]

end Walk

section Holes

variable {fs : Fs} {log : History}

/-- A dentry without inode reads its inode from the end of the data bitmap, where
it finds an empty one. -/
theorem readInode_hole (hdisk : Geometry fs.disk)
    (hole : slice fs.disk.bytes 3040 32 = List.replicate 32 0) (ftype : FileType) :
    ∃ data, readInode fs ftype (-1) = some (fs, ⟨0, 0, 0, [], data⟩) := by
  have hread : driverRead fs.disk (inoOfs (-1)) sizeofInodeD
      = some (slice fs.disk.bytes 3040 32) := hdisk.read (by rfl) (by rfl) (by decide)
  have hino : (InodeD.decode (List.replicate 32 0)).ino = 0 := by decide
  have hsize : (InodeD.decode (List.replicate 32 0)).size = 0 := by decide
  have hcount : (InodeD.decode (List.replicate 32 0)).dirCnt.toNat = 0 := by decide
  rw [readInode, hread, Option.bind_eq_bind, Option.bind_some, hole]
  simp only [hino, hsize, hcount]
  cases ftype with
  | dir => exact ⟨_, rfl⟩
  | file =>
      have hdata : driverRead fs.disk (daOfs (-1)) (dataPerFile * blksSz fs.disk.szIo)
          = some (slice fs.disk.bytes 121856 8192) := by
        rw [hdisk.blks]
        exact hdisk.read (by rfl) (by rfl) (by decide)
      rw [hdata]
      exact ⟨_, rfl⟩
  | symLink => exact ⟨_, rfl⟩
  | other raw => exact ⟨_, rfl⟩

/-- The end of a lookup succeeds and changes nothing that is recorded. -/
theorem Recorded.loadInode (h : Recorded fs log) {ptr : DentryPtr} {dentry : Dentry}
    (hptr : fs.heap[ptr]? = some dentry) :
    ∃ fs', Newfs.loadInode fs ptr = some fs' ∧ Recorded fs' log := by
  cases hinode : dentry.inode with
  | some inode =>
      refine ⟨fs, ?_, h⟩
      rw [Newfs.loadInode, hptr, Option.bind_eq_bind, Option.bind_some, hinode]
      rfl
  | none =>
      obtain ⟨data, hread⟩ := readInode_hole h.geometry h.hole dentry.ftype
      have hload : Newfs.loadInode fs ptr
          = some (fs.setInode ptr dentry ⟨0, 0, 0, [], data⟩) := by
        rw [Newfs.loadInode, hptr, Option.bind_eq_bind, Option.bind_some, hinode,
          h.unloaded ptr dentry hptr hinode]
        simp [hread]
      have hgrows := loadInode_grows hload
      refine ⟨_, hload, ?_⟩
      refine ⟨h.geometry, h.hole, h.rootDentry, ?_, ?_, ?_, h.proper, ?_, h.uniq, h.inj, ?_, ?_⟩
      · obtain ⟨root, hroot⟩ := h.root
        obtain ⟨root', hroot', -⟩ := hgrows.heap 0 root hroot
        exact ⟨root', hroot'⟩
      · intro other d hother hnull
        rw [heap_setInode hptr] at hother
        split at hother
        · cases hother
          simp at hnull
        · exact h.unloaded other d hother hnull
      · intro comps name other hlog
        obtain ⟨d, hd, hname⟩ := h.live comps name other hlog
        obtain ⟨d', hd', hsame⟩ := hgrows.heap other d hd
        exact ⟨d', hd', by rw [Dentry.name, hsame.fname, ← Dentry.name, hname]⟩
      · intro comps name other hlog
        exact (h.closed comps name other hlog).grows hgrows.heap
      · intro comps other d inode' hnames hother hinode'
        rw [heap_setInode hptr] at hother
        split at hother
        · rename_i heq
          subst heq
          cases hother
          cases hinode'
          intro sub
          simp only [List.not_mem_nil, false_iff, not_exists]
          intro name
          exact h.barren comps ptr dentry hnames hptr hinode name sub
        · exact h.children comps other d inode' hnames hother hinode'
      · intro comps other d hnames hother hnull
        rw [heap_setInode hptr] at hother
        split at hother
        · cases hother
          simp at hnull
        · exact h.barren comps other d hnames hother hnull

end Holes

/-- A lookup of a normalised path other than the root. -/
theorem lookup_pathOf {fs : Fs} (hroot : fs.super.rootDentry = 0) {path : List (List Byte)}
    (hvalid : ValidPath path) (hne : path ≠ []) :
    lookup fs (pathOf path) =
      (lookupLoop fs.heap path.length path 0 0 (none, none)).bind fun result =>
        result.1.bind fun ptr => (loadInode fs ptr).map fun fs' =>
          (fs', ⟨ptr, result.2, false⟩) := by
  have hlvl : path.length ≠ 0 := by simpa using hne
  rw [lookup, calcLvl_pathOf hvalid, tokens_pathOf hvalid, if_neg hlvl, hroot]
  simp only [hlvl, decide_false, Option.bind_eq_bind, Option.map_eq_bind]
  rfl

section Resolve

variable {fs : Fs} {log : History} (h : Recorded fs log)

include h

/-- Everything in the directory at `comps` is recorded under its own name. -/
theorem Recorded.child {comps : List (List Byte)} {ptr : DentryPtr} {dentry : Dentry}
    {inode : Inode} (hptr : Names log comps ptr) (hdentry : fs.heap[ptr]? = some dentry)
    (hinode : dentry.inode = some inode) {sub : DentryPtr} (hsub : sub ∈ inode.dentrys) :
    ∃ d, fs.heap[sub]? = some d ∧ (comps ++ [d.name], sub) ∈ log := by
  obtain ⟨name, hlog⟩ := (h.children comps ptr dentry inode hptr hdentry hinode sub).mp hsub
  obtain ⟨d, hd, hname⟩ := h.live comps name sub hlog
  exact ⟨d, hd, hname ▸ hlog⟩

/-- Wherever the rest of a lookup leads, it stays below the current dentry. -/
theorem Recorded.lookupLoop_under {totalLvl lvl : ℕ} {fnames comps : List (List Byte)}
    {ptr found : DentryPtr} {isFind : Option Bool} (hptr : Names log comps ptr)
    (hloop : lookupLoop fs.heap totalLvl fnames lvl ptr (none, none)
      = some (some found, isFind)) :
    ∃ more, Names log (comps ++ more) found := by
  induction fnames generalizing lvl comps ptr with
  | nil => simp [lookupLoop] at hloop
  | cons fname fnames ih =>
      simp only [lookupLoop, Option.bind_eq_bind] at hloop
      obtain ⟨dentry, hdentry, hloop⟩ := Option.bind_eq_some_iff.mp hloop
      obtain ⟨inode, hinode, hloop⟩ := Option.bind_eq_some_iff.mp hloop
      split at hloop
      · cases hloop
        exact ⟨[], by simpa using hptr⟩
      · split at hloop
        · split at hloop
          · cases hloop
            exact ⟨[], by simpa using hptr⟩
          · rename_i hit hfind
            obtain ⟨-, newer, older, -, -, hsplit, -⟩ := findHit_some hfind
            obtain ⟨d, -, hlog⟩ := h.child hptr hdentry hinode (show hit ∈ _ by simp [hsplit])
            split at hloop
            · cases hloop
              exact ⟨[d.name], names_append.mpr hlog⟩
            · obtain ⟨more, hmore⟩ := ih (names_append.mpr hlog) hloop
              exact ⟨d.name :: more, by simpa using hmore⟩
        · exact ih hptr hloop

/-- The loop of a lookup whose directories above are clear comes down to the
search in the last directory. -/
theorem Recorded.lookupLoop_parent {comps rest : List (List Byte)} {name : List Byte}
    (hclear : Clear fs log comps) {ptr : DentryPtr} {dentry : Dentry} {inode : Inode}
    (hptr : Names log comps ptr) (hdentry : fs.heap[ptr]? = some dentry)
    (hdir : dentry.ftype = .dir) (hinode : dentry.inode = some inode)
    (acc : Option DentryPtr × Option Bool) :
    lookupLoop fs.heap (comps ++ name :: rest).length (comps ++ name :: rest) 0 0 acc =
      match findHit fs.heap name inode.dentrys with
      | none => some (some ptr, some false)
      | some hit =>
          if rest = [] then some (some hit, some true)
          else lookupLoop fs.heap (comps ++ name :: rest).length rest (comps.length + 1) hit
            acc := by
  have hparents := h.parentsExist ⟨ptr, dentry, hptr, hdentry, hdir⟩
  rw [lookupLoop_walk h hclear hparents hptr (by simp), lookupLoop_dir hdentry hinode hdir]
  have hlast : comps.length + 1 = (comps ++ name :: rest).length ↔ rest = [] := by
    rw [List.length_append, List.length_cons, ← List.length_eq_zero_iff]
    omega
  simp only [hlast]

/-- A directory without inode crashes the lookup. -/
theorem Recorded.lookupLoop_crash {comps rest : List (List Byte)} {name : List Byte}
    (hclear : Clear fs log comps) {ptr : DentryPtr} {dentry : Dentry}
    (hptr : Names log comps ptr) (hdentry : fs.heap[ptr]? = some dentry)
    (hdir : dentry.ftype = .dir) (hinode : dentry.inode = none)
    (acc : Option DentryPtr × Option Bool) :
    lookupLoop fs.heap (comps ++ name :: rest).length (comps ++ name :: rest) 0 0 acc = none := by
  have hparents := h.parentsExist ⟨ptr, dentry, hptr, hdentry, hdir⟩
  rw [lookupLoop_walk h hclear hparents hptr (by simp), lookupLoop, hdentry]
  simp [hinode]

theorem Recorded.lookup_eq {path : List (List Byte)} (hvalid : ValidPath path)
    (hne : path ≠ []) :
    lookup fs (pathOf path) =
      (lookupLoop fs.heap path.length path 0 0 (none, none)).bind fun result =>
        result.1.bind fun ptr => (Newfs.loadInode fs ptr).map fun fs' =>
          (fs', ⟨ptr, result.2, false⟩) :=
  lookup_pathOf h.rootDentry hvalid hne

/-- A lookup of an entry of a directory with clear path looks at the entries of
that directory. -/
theorem Recorded.lookup_some {comps : List (List Byte)} {name : List Byte}
    (hvalid : ValidPath (comps ++ [name])) (hclear : Clear fs log comps) {ptr : DentryPtr}
    {dentry : Dentry} (hptr : Names log comps ptr) (hdentry : fs.heap[ptr]? = some dentry)
    (hdir : dentry.ftype = .dir) {fs' : Fs} {found : Lookup}
    (hlookup : lookup fs (pathOf (comps ++ [name])) = some (fs', found)) :
    ∃ inode, dentry.inode = some inode ∧ Newfs.loadInode fs found.dentry = some fs' ∧
      ((findHit fs.heap name inode.dentrys = none ∧ found = ⟨ptr, some false, false⟩) ∨
        ∃ hit, findHit fs.heap name inode.dentrys = some hit ∧
          found = ⟨hit, some true, false⟩) := by
  rw [h.lookup_eq hvalid (by simp)] at hlookup
  obtain ⟨result, hloop, hlookup⟩ := Option.bind_eq_some_iff.mp hlookup
  obtain ⟨ret, hret, hlookup⟩ := Option.bind_eq_some_iff.mp hlookup
  obtain ⟨fs₁, hload, hfound⟩ := Option.map_eq_some_iff.mp hlookup
  cases hfound
  cases hinode : dentry.inode with
  | none =>
      rw [h.lookupLoop_crash hclear hptr hdentry hdir hinode] at hloop
      cases hloop
  | some inode =>
      refine ⟨inode, rfl, hload, ?_⟩
      rw [h.lookupLoop_parent hclear hptr hdentry hdir hinode] at hloop
      cases hfind : findHit fs.heap name inode.dentrys with
      | none =>
          rw [hfind] at hloop
          cases hloop
          cases hret
          exact Or.inl ⟨rfl, rfl⟩
      | some hit =>
          rw [hfind] at hloop
          simp only [if_true] at hloop
          cases hloop
          cases hret
          exact Or.inr ⟨_, rfl, rfl⟩

/-- Nothing has been created under a name that finds nothing. -/
theorem Recorded.not_mem_of_findHit {comps : List (List Byte)} {name : List Byte}
    {ptr : DentryPtr} {dentry : Dentry} {inode : Inode} (hptr : Names log comps ptr)
    (hdentry : fs.heap[ptr]? = some dentry) (hinode : dentry.inode = some inode)
    (hfind : findHit fs.heap name inode.dentrys = none) (sub : DentryPtr) :
    (comps ++ [name], sub) ∉ log := by
  intro hlog
  have hmem := (h.children comps ptr dentry inode hptr hdentry hinode sub).mpr ⟨name, hlog⟩
  obtain ⟨d, hd, hname⟩ := h.live comps name sub hlog
  have hmiss := findHit_none hfind hmem hd
  have hhit : d.hits name = true := hname ▸ d.hits_name
  rw [hmiss] at hhit
  cases hhit

theorem Recorded.exact_of_clear {path : List (List Byte)} (hvalid : ValidPath path)
    (hne : path ≠ []) (hparents : ParentsExist fs log path) (hclear : Clear fs log path) :
    Exact fs log path := by
  obtain ⟨comps, name, rfl⟩ := (List.eq_nil_or_concat' path).resolve_left hne
  obtain ⟨hclear, hclearAt⟩ := clear_append.mp hclear
  obtain ⟨-, ptr, dentry, hptr, hdentry, hdir⟩ := parentsExist_append.mp hparents
  obtain ⟨dentry', inode, hdentry', hinode, hunshadowed⟩ := hclearAt ptr hptr
  have hsame : dentry' = dentry := Option.some.inj (hdentry'.symm.trans hdentry)
  subst hsame
  rw [Exact, h.lookup_eq hvalid hne, h.lookupLoop_parent hclear hptr hdentry hdir hinode]
  cases hfind : findHit fs.heap name inode.dentrys with
  | none =>
      obtain ⟨fs', hload, -⟩ := h.loadInode hdentry
      refine ⟨fs', ⟨ptr, some false, false⟩, by simp [hload], Or.inr ⟨rfl, ?_, ?_⟩⟩
      · exact h.not_mem_of_findHit hptr hdentry hinode hfind
      · rwa [List.dropLast_concat]
  | some hit =>
      obtain ⟨sub, newer, older, hsub, -, hsplit, -⟩ := findHit_some hfind
      obtain ⟨d, hd, hlog⟩ := h.child hptr hdentry hinode (show hit ∈ _ by simp [hsplit])
      obtain ⟨fs', hload, -⟩ := h.loadInode hd
      refine ⟨fs', ⟨hit, some true, false⟩, by simp [hload], Or.inl ⟨rfl, ?_⟩⟩
      rw [unshadowed_iff.mp hunshadowed hit d hfind hd] at hlog
      exact hlog

/-- Where an exact lookup has come along a clear path, the next component is
clear as well: a wrong turn is never made good. -/
theorem Recorded.clearAt_of_exact {comps rest : List (List Byte)} {name : List Byte}
    (hvalid : ValidPath (comps ++ name :: rest)) (hdirAt : DirAt fs log comps)
    (hexact : Exact fs log (comps ++ name :: rest)) (hclear : Clear fs log comps) :
    ClearAt fs log comps name := by
  obtain ⟨ptr, dentry, hptr, hdentry, hdir⟩ := hdirAt
  obtain ⟨fs', found, hlookup, hresult⟩ := hexact
  rw [h.lookup_eq hvalid (by simp)] at hlookup
  obtain ⟨result, hloop, hlookup⟩ := Option.bind_eq_some_iff.mp hlookup
  obtain ⟨ret, hret, hlookup⟩ := Option.bind_eq_some_iff.mp hlookup
  obtain ⟨fs₁, -, hfound⟩ := Option.map_eq_some_iff.mp hlookup
  cases hfound
  intro ptr' hptr'
  rw [h.names_uniq hptr' hptr]
  cases hinode : dentry.inode with
  | none =>
      rw [h.lookupLoop_crash hclear hptr hdentry hdir hinode] at hloop
      cases hloop
  | some inode =>
      refine ⟨dentry, inode, hdentry, hinode, unshadowed_iff.mpr ?_⟩
      intro hit sub hfind hsub
      rw [h.lookupLoop_parent hclear hptr hdentry hdir hinode, hfind] at hloop
      obtain ⟨-, newer, older, -, -, hsplit, -⟩ := findHit_some hfind
      obtain ⟨d, hd, hlog⟩ := h.child hptr hdentry hinode (show hit ∈ _ by simp [hsplit])
      have hsame : d = sub := Option.some.inj (hd.symm.trans hsub)
      subst hsame
      by_cases hrest : rest = []
      · subst hrest
        simp only [if_true] at hloop
        cases hloop
        cases hret
        rcases hresult with ⟨-, hmem⟩ | ⟨hfalse, -⟩
        · have heq := h.inj _ _ _ hlog hmem
          simpa using heq
        · simp at hfalse
      · simp only [hrest, if_false] at hloop
        rw [← Prod.mk.eta (p := result), hret] at hloop
        obtain ⟨more, hmore⟩ := h.lookupLoop_under (names_append.mpr hlog) hloop
        rcases hresult with ⟨-, hmem⟩ | ⟨-, -, hparent⟩
        · have heq := h.names_inj hmore (Or.inr hmem)
          simp only [List.append_assoc, List.append_cancel_left_eq, List.singleton_append,
            List.cons.injEq] at heq
          exact heq.1
        · have heq := h.names_inj hmore hparent
          rw [List.dropLast_append_of_ne_nil (by simp), List.dropLast_cons_of_ne_nil hrest] at heq
          simp only [List.append_assoc, List.append_cancel_left_eq, List.singleton_append,
            List.cons.injEq] at heq
          exact heq.1

/-- Resolution of a path is exact just when no component of it is shadowed. -/
theorem Recorded.exact_iff_clear {path : List (List Byte)} (hvalid : ValidPath path)
    (hne : path ≠ []) (hparents : ParentsExist fs log path) :
    Exact fs log path ↔ Clear fs log path := by
  constructor
  · intro hexact
    have hprefix : ∀ done rest, path = done ++ rest → Clear fs log done := by
      intro done
      induction done using List.reverseRecOn with
      | nil =>
          intro rest _ comps name rest' heq
          simp at heq
      | append_singleton done name ih =>
          intro rest heq
          rw [List.append_assoc, List.singleton_append] at heq
          have hclear := ih (name :: rest) heq
          subst heq
          exact clear_append.mpr ⟨hclear,
            h.clearAt_of_exact hvalid (hparents done name rest rfl) hexact hclear⟩
    exact hprefix path [] (by simp)
  · exact h.exact_of_clear hvalid hne hparents

end Resolve

end OperateSystem.Newfs

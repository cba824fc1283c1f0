import OperateSystem.Core.Scanning
import OperateSystem.Newfs.Stacked

/-!
# Listing a directory

FUSE lists a directory by calling `newfs_readdir` with offset 0, then with the offset
handed to `filler` by the call before, until a call hands nothing over.  The offset is
the position of a dentry in the list, and entries may be created in the directory
between two calls.
-/

namespace OperateSystem.Newfs

open OperateSystem.Scanning
open OperateSystem.Traces

/-- The entries that are linked at `ptr`. -/
def entries (heap : List Dentry) (ptr : DentryPtr) : List DentryPtr :=
  ((heap[ptr]?).bind Dentry.inode).elim [] Inode.dentrys

/-- The dentry that `newfs_get_dentry` finds for `offset` in the directory. -/
def entryAt (heap : List Dentry) (dir : DentryPtr) (offset : Int) : Option DentryPtr := do
  let dentry ← heap[dir]?
  let inode ← dentry.inode
  getDentry inode (toInt32 offset)

/-- The offset for the next call, the dentries whose names were handed to `filler` and
whether a call has handed nothing over. -/
structure DirScan where
  fs : Fs
  offset : Int
  reported : List DentryPtr
  ended : Bool

/-- The next call of `newfs_readdir`. -/
def DirScan.call (path : List Byte) (dir : DentryPtr) (scan : DirScan) : Option DirScan := do
  let (fs, _, out) ← readdir scan.fs path scan.offset
  match out with
  | some (_, offset) =>
      return ⟨fs, offset, scan.reported ++ (entryAt fs.heap dir scan.offset).toList, false⟩
  | none => return { scan with fs := fs, ended := true }

inductive ScanEvent
  | readdir
  | create (maker : Maker) (path : List Byte) (junk : Junk)

/-- What can happen while `path`, which leads to `dir`, is listed. -/
def DirScan.Step (path : List Byte) (dir : DentryPtr) (scan : DirScan) (event : ScanEvent)
    (after : DirScan) : Prop :=
  scan.ended = false ∧
    match event with
    | .readdir => scan.call path dir = some after
    | .create maker other junk =>
        (∃ fs found, lookup scan.fs other = some (fs, found) ∧ found.dentry = dir) ∧
          ∃ fs, maker.call scan.fs other junk = some (fs, 0) ∧ after = { scan with fs := fs }

section Way

variable {fs fs' : Fs} {path : List Byte}

theorem entries_of_dentry {heap : List Dentry} {ptr : DentryPtr} {dentry : Dentry} {inode : Inode}
    (hptr : heap[ptr]? = some dentry) (hinode : dentry.inode = some inode) :
    entries heap ptr = inode.dentrys := by
  rw [entries, hptr, Option.bind_some, hinode]
  rfl

/-- The first sibling that hits is the same while names and types stay. -/
theorem findHit_grows {heap heap' : List Dentry} (hgrows : HeapGrows heap heap') (name : List Byte)
    {dentrys : List DentryPtr} (hlt : ∀ sub ∈ dentrys, sub < heap.length) :
    findHit heap' name dentrys = findHit heap name dentrys := by
  induction dentrys with
  | nil => rfl
  | cons sub dentrys ih =>
      obtain ⟨hsub, hrest⟩ := List.forall_mem_cons.mp hlt
      have hget := List.getElem?_eq_getElem hsub
      obtain ⟨dentry', hdentry', hsame⟩ := hgrows sub _ hget
      have hhits : dentry'.hits name = heap[sub].hits name := by
        rw [Dentry.hits, Dentry.hits, Dentry.chars, Dentry.chars, hsame.fname, hsame.ftype]
      have hrec := ih hrest
      rw [findHit] at hrec ⊢
      rw [List.find?_cons, hdentry', Option.any_some, hhits, hrec, findHit, findHit,
        List.find?_cons, hget, Option.any_some]

/-- One turn of the lookup finds in the grown heap what it found before. -/
theorem lookupLoop_cons_grows {heap heap' : List Dentry} (hgrows : HeapGrows heap heap')
    {totalLvl lvl : ℕ} {fname : List Byte} {fnames : List (List Byte)} {cursor : ℕ}
    {dentry : Dentry} {inode : Inode} (hptr : heap'[cursor]? = some dentry)
    (hinode : dentry.inode = some inode) (hlisted : ∀ sub ∈ inode.dentrys, sub < heap.length) :
    lookupLoop heap' totalLvl (fname :: fnames) lvl cursor (none, none) =
      if dentry.ftype = .file ∧ lvl + 1 < totalLvl then some (some cursor, none)
      else if dentry.ftype = .dir then
        match findHit heap fname inode.dentrys with
        | none => some (some cursor, some false)
        | some hit =>
            if lvl + 1 = totalLvl then some (some hit, some true)
            else lookupLoop heap' totalLvl fnames (lvl + 1) hit (none, none)
      else lookupLoop heap' totalLvl fnames (lvl + 1) cursor (none, none) := by
  rw [← findHit_grows hgrows fname hlisted]
  exact lookupLoop_cons hptr hinode

/-- A lookup that finds `dir` comes past dentries made before it only, so what changes from
`dir` on leaves its way alone. -/
theorem lookupLoop_stable {heap heap' : List Dentry} (hstacked : Stacked heap)
    (hgrows : HeapGrows heap heap') {dir : ℕ} (hsame : ∀ ptr < dir, heap'[ptr]? = heap[ptr]?)
    {totalLvl : ℕ} {fnames : List (List Byte)} {lvl : ℕ} {cursor : ℕ}
    (h : lookupLoop heap totalLvl fnames lvl cursor (none, none) = some (some dir, some true)) :
    cursor < dir ∧ lookupLoop heap' totalLvl fnames lvl cursor (none, none)
      = some (some dir, some true) := by
  induction fnames generalizing lvl cursor with
  | nil => cases h
  | cons fname fnames ih =>
      obtain ⟨dentry, hptr, inode, hinode⟩ : ∃ dentry, heap[cursor]? = some dentry ∧
          ∃ inode, dentry.inode = some inode := by
        simp only [lookupLoop, Option.bind_eq_bind] at h
        obtain ⟨dentry, hptr, h⟩ := Option.bind_eq_some_iff.mp h
        obtain ⟨inode, hinode, -⟩ := Option.bind_eq_some_iff.mp h
        exact ⟨dentry, hptr, inode, hinode⟩
      obtain ⟨-, hbounds⟩ := hstacked cursor dentry inode hptr hinode
      rw [lookupLoop_cons hptr hinode] at h
      -- Wherever the lookup goes on, it comes to `dir` later.
      have hturn := fun hlt : cursor < dir =>
        @lookupLoop_cons_grows heap heap' hgrows totalLvl lvl fname fnames cursor dentry inode
          (by rw [hsame cursor hlt, hptr]) hinode fun sub hsub => (hbounds sub hsub).2
      split at h
      · cases h
      · rename_i hplain
        rw [if_neg hplain] at hturn
        split at h
        · rename_i hdir
          rw [if_pos hdir] at hturn
          cases hfind : findHit heap fname inode.dentrys with
          | none =>
              rw [hfind] at h
              cases h
          | some hit =>
              obtain ⟨sub, newer, older, -, -, hsplit, -⟩ := findHit_some hfind
              have hafter : cursor < hit := (hbounds hit (by simp [hsplit])).1
              rw [hfind] at h hturn
              simp only at h hturn
              split at h
              · rename_i hlast
                rw [if_pos hlast] at hturn
                cases h
                exact ⟨hafter, hturn hafter⟩
              · rename_i hlast
                rw [if_neg hlast] at hturn
                obtain ⟨hlt, hrest⟩ := ih h
                have hcursor := hafter.trans hlt
                exact ⟨hcursor, (hturn hcursor).trans hrest⟩
        · rename_i hother
          rw [if_neg hother] at hturn
          obtain ⟨hlt, hrest⟩ := ih h
          exact ⟨hlt, (hturn hlt).trans hrest⟩

/-- A path without slash has at most one token. -/
theorem tokens_of_calcLvl (h : calcLvl path = 0) :
    tokens path = [] ∨ ∃ fname, tokens path = [fname] := by
  rw [calcLvl] at h
  split at h
  · rename_i hroot
    subst hroot
    exact Or.inl (by decide)
  · rw [tokens, List.splitOn_eq_singleton (List.count_eq_zero.mp h)]
    by_cases hnil : path = []
    · left
      simp [hnil]
    · right
      exact ⟨path, by simp [hnil]⟩

/-- A path without slash leads to the root as long as something there hits. -/
theorem lookupLoop_root {heap heap' : List Dentry} (hgrows : HeapGrows heap heap')
    {root ptr : DentryPtr} (hentries : entries heap ptr ⊆ entries heap' ptr)
    {fnames : List (List Byte)} (hone : fnames = [] ∨ ∃ fname, fnames = [fname])
    (h : lookupLoop heap 0 fnames 0 root (some root, some true) = some (some ptr, some true)) :
    ptr = root ∧ lookupLoop heap' 0 fnames 0 root (some root, some true)
      = some (some root, some true) := by
  rcases hone with rfl | ⟨fname, rfl⟩
  · cases h
    exact ⟨rfl, rfl⟩
  · obtain ⟨dentry, hptr, inode, hinode⟩ : ∃ dentry, heap[root]? = some dentry ∧
        ∃ inode, dentry.inode = some inode := by
      simp only [lookupLoop, Option.bind_eq_bind] at h
      obtain ⟨dentry, hptr, h⟩ := Option.bind_eq_some_iff.mp h
      obtain ⟨inode, hinode, -⟩ := Option.bind_eq_some_iff.mp h
      exact ⟨dentry, hptr, inode, hinode⟩
    obtain ⟨dentry', hptr', hsame⟩ := hgrows root dentry hptr
    obtain ⟨inode', hinode', -⟩ := hsame.inode inode hinode
    rw [lookupLoop_cons hptr hinode, if_neg (by simp)] at h
    rw [lookupLoop_cons hptr' hinode', if_neg (by simp), hsame.ftype]
    split at h
    · rename_i hdir
      rw [if_pos hdir]
      cases hfind : findHit heap fname inode.dentrys with
      | none =>
          rw [hfind] at h
          cases h
      | some hit =>
          rw [hfind] at h
          cases h
          refine ⟨rfl, ?_⟩
          obtain ⟨sub, newer, older, hsub, hhits, hsplit, -⟩ := findHit_some hfind
          rw [entries_of_dentry hptr hinode, entries_of_dentry hptr' hinode'] at hentries
          have hmem := hentries (show hit ∈ inode.dentrys by simp [hsplit])
          cases hfind' : findHit heap' fname inode'.dentrys with
          | none =>
              obtain ⟨sub', hsub', hgrown⟩ := hgrows hit sub hsub
              have hmiss := findHit_none hfind' hmem hsub'
              rw [Dentry.hits, Dentry.chars, hgrown.fname, hgrown.ftype] at hmiss
              rw [Dentry.hits, Dentry.chars, hmiss] at hhits
              cases hhits
          | some hit' => rfl
    · rename_i hother
      rw [if_neg hother]
      cases h
      exact ⟨rfl, rfl⟩

/-- What is loaded or created from a dentry on leaves a path that leads to it alone. -/
theorem lookup_stable {fs₁ : Fs} {found : Lookup} (hstacked : Stacked fs.heap)
    (h : lookup fs path = some (fs₁, found)) (hfind : found.isFind = some true)
    (hgrows : fs.Grows fs')
    (hsame : ∀ ptr : ℕ, ptr < found.dentry → fs'.heap[ptr]? = fs.heap[ptr]?)
    (hentries : entries fs.heap found.dentry ⊆ entries fs'.heap found.dentry) {dentry : Dentry}
    (hptr : fs'.heap[found.dentry]? = some dentry) (hinode : dentry.inode.isSome) :
    lookup fs' path = some (fs', found) := by
  obtain ⟨hloop, -, hroot⟩ := lookup_some h
  have hrootDentry : fs'.super.rootDentry = fs.super.rootDentry := by rw [hgrows.super.rest]
  rw [hfind] at hloop
  have hloop' : lookupLoop fs'.heap (calcLvl path) (tokens path) 0 fs'.super.rootDentry
      (if calcLvl path = 0 then (some fs'.super.rootDentry, some true) else (none, none))
      = some (some found.dentry, some true) := by
    rw [hrootDentry]
    by_cases hlvl : calcLvl path = 0
    · rw [if_pos hlvl, hlvl] at hloop ⊢
      obtain ⟨hptrRoot, hrest⟩ :=
        lookupLoop_root hgrows.heap hentries (tokens_of_calcLvl hlvl) hloop
      rw [hrest, hptrRoot]
    · rw [if_neg hlvl] at hloop ⊢
      exact (lookupLoop_stable hstacked hgrows.heap hsame hloop).2
  rw [lookup_of_loop hloop' hptr hinode, ← hroot, ← hfind]

end Way

/-- `cur_dir` is an `int`: no position from here on can be asked for. -/
def maxPosition : ℕ := 2 ^ 31

theorem getDentry_position (inode : Inode) {offset : Int} (hnonneg : 0 ≤ offset)
    (hle : offset ≤ 2 ^ 31) :
    getDentry inode (toInt32 offset)
      = if offset.toNat < maxPosition then inode.dentrys[offset.toNat]? else none := by
  by_cases hlt : offset < 2 ^ 31
  · rw [toInt32_of_range (by omega) hlt, getDentry, if_pos hnonneg,
      if_pos (by rw [maxPosition]; omega)]
  · have hlast : offset = 2 ^ 31 := by omega
    subst hlast
    rfl

/-- The scan as one of a list that grows in front. -/
def DirScan.view (dir : DentryPtr) (scan : DirScan) : Scan DentryPtr :=
  ⟨entries scan.fs.heap dir, scan.offset.toNat, scan.reported, scan.ended⟩

def DirScan.viewEvent (scan : DirScan) : ScanEvent → Event DentryPtr
  | .readdir => .call
  | .create _ _ _ => .grow scan.fs.heap.length

/-- What holds while a directory in memory is listed. -/
structure Listing (path : List Byte) (dir : DentryPtr) (scan : DirScan) : Prop where
  stacked : Stacked scan.fs.heap
  leads : ∃ found, lookup scan.fs path = some (scan.fs, found) ∧ found.isFind = some true ∧
    found.dentry = dir
  opened : ∃ inode, Open scan.fs.heap dir inode
  offset_nonneg : 0 ≤ scan.offset
  offset_le : scan.offset ≤ 2 ^ 31

section Events

variable {path : List Byte} {dir : DentryPtr} {scan after : DirScan}

/-- A call of `newfs_readdir` is a call of the abstract scan. -/
theorem Listing.readdir (h : Listing path dir scan) :
    ∃ next, scan.call path dir = some next ∧ (scan.ended = false →
      Listing path dir next ∧ next.view dir = (scan.view dir).call maxPosition) := by
  obtain ⟨found, hlookup, hfind, hdentry⟩ := h.leads
  obtain ⟨inode, dentry, hptr, hdir, hinode⟩ := h.opened
  have hposition := getDentry_position inode h.offset_nonneg h.offset_le
  have hview : (if (scan.view dir).offset < maxPosition then
      (scan.view dir).entries[(scan.view dir).offset]? else none)
      = getDentry inode (toInt32 scan.offset) := by
    rw [hposition, DirScan.view, entries_of_dentry hptr hinode]
  have hat : entryAt scan.fs.heap dir scan.offset = getDentry inode (toInt32 scan.offset) := by
    simp only [entryAt, hptr, hinode, Option.bind_eq_bind, Option.bind_some]
  cases hsub : getDentry inode (toInt32 scan.offset) with
  | none =>
      have hcall : scan.call path dir = some { scan with ended := true } := by
        simp only [DirScan.call, Newfs.readdir, hlookup, hfind, hdentry, hptr, hinode, hsub,
          Option.bind_eq_bind, Option.bind_some, if_true]
        rfl
      refine ⟨_, hcall, fun _ => ⟨?_, ?_⟩⟩
      · exact ⟨h.stacked, h.leads, h.opened, h.offset_nonneg, h.offset_le⟩
      · rw [Scan.call, hview, hsub]
        rfl
  | some sub =>
      rw [hposition] at hsub
      split at hsub
      · rename_i hlt
        have hmem := List.mem_of_getElem? hsub
        obtain ⟨-, hlength⟩ := (h.stacked dir dentry inode hptr hinode).2 sub hmem
        have hget := List.getElem?_eq_getElem hlength
        have hcall : scan.call path dir
            = some ⟨scan.fs, scan.offset + 1, scan.reported ++ [sub], false⟩ := by
          simp only [DirScan.call, Newfs.readdir, hlookup, hfind, hdentry, hptr, hinode,
            hposition, if_pos hlt, hsub, hget, Option.bind_eq_bind, Option.bind_some, if_true,
            Option.pure_def, hat, Option.toList_some]
        refine ⟨_, hcall, fun hlive => ⟨?_, ?_⟩⟩
        · have hnonneg := h.offset_nonneg
          refine ⟨h.stacked, h.leads, h.opened, ?_, ?_⟩
          · exact Int.le_add_one hnonneg
          · rw [maxPosition] at hlt
            change scan.offset + 1 ≤ 2 ^ 31
            omega
        · have hnonneg := h.offset_nonneg
          rw [Scan.call, hview, hposition, if_pos hlt, hsub]
          simp only [DirScan.view, hlive]
          congr 1
          omega
      · cases hsub

/-- A created entry is put in front, and the path still leads to the directory. -/
theorem Listing.create (h : Listing path dir scan) {maker : Maker} {other : List Byte} {junk : Junk}
    (hstep : DirScan.Step path dir scan (.create maker other junk) after) :
    Listing path dir after ∧ scan.fs.heap.length ∉ entries scan.fs.heap dir ∧
      after.view dir = { scan.view dir with
        entries := scan.fs.heap.length :: entries scan.fs.heap dir } := by
  obtain ⟨-, ⟨fs₁, found', hlookup', hdir'⟩, fs, hcall, rfl⟩ := hstep
  obtain ⟨found, hlookup, hfind, hdentry⟩ := h.leads
  obtain ⟨inode, dentry, hptr, hdir, hinode⟩ := h.opened
  have hstacked := h.stacked.make hcall
  obtain ⟨found'', inode', fname, ftype, added, hlookup'', -, -, -, -, -, hcreate⟩ :=
    Maker.call_zero hcall
  rw [hlookup'] at hlookup''
  cases hlookup''
  have hgrows := create_grows hcreate
  obtain ⟨last, lastInode, hlast, hlastInode, super, added', super', linked, -,
    ⟨ret, hlink⟩, hfs⟩ :=
    create_some hcreate
  have hlinked := allocDentry_dentrys (blksSz scan.fs.disk.szIo) super lastInode scan.fs.heap.length
  rw [hlink] at hlinked
  rw [hdir'] at hlast hfs
  rw [hptr] at hlast
  cases hlast
  rw [hinode] at hlastInode
  cases hlastInode
  have hheap : ∀ ptr : ℕ, fs.heap[ptr]? = if ptr = scan.fs.heap.length then some added'
      else if dir = ptr then some { dentry with inode := some linked }
      else scan.fs.heap[ptr]? := by
    intro ptr
    rw [hfs]
    exact heap_setInode_append hptr linked added' ptr
  have hlt := (List.getElem?_eq_some_iff.mp hptr).1
  have hptr' : fs.heap[dir]? = some { dentry with inode := some linked } := by
    rw [hheap, if_neg (Nat.ne_of_lt hlt), if_pos rfl]
  have hold := entries_of_dentry hptr hinode
  have hnew : entries fs.heap dir = scan.fs.heap.length :: entries scan.fs.heap dir := by
    rw [entries_of_dentry hptr' rfl, hlinked, hold]
  refine ⟨⟨hstacked, ⟨found, ?_, hfind, hdentry⟩, ⟨linked, _, hptr', hdir, rfl⟩, h.offset_nonneg,
    h.offset_le⟩, ?_, ?_⟩
  · subst hdentry
    apply lookup_stable h.stacked hlookup hfind hgrows _ _ hptr' rfl
    · intro ptr hbelow
      rw [hheap, if_neg (Nat.ne_of_lt (hbelow.trans hlt)), if_neg (Nat.ne_of_gt hbelow)]
    · rw [hnew]
      exact List.subset_cons_self _ _
  · intro hmem
    rw [hold] at hmem
    exact Nat.lt_irrefl _ ((h.stacked dir dentry inode hptr hinode).2 _ hmem).2
  · rw [DirScan.view, hnew]
    rfl

/-- An event of the listing is one of the abstract scan. -/
theorem Listing.step (h : Listing path dir scan) {event : ScanEvent}
    (hstep : DirScan.Step path dir scan event after) :
    Listing path dir after ∧
      Scanning.Step maxPosition (scan.view dir) (scan.viewEvent event) (after.view dir) := by
  have hlive := hstep.1
  cases event with
  | readdir =>
      obtain ⟨next, hcall, hnext⟩ := h.readdir
      have hsame : next = after := Option.some.inj (hcall.symm.trans hstep.2)
      subst hsame
      obtain ⟨hlisting, hview⟩ := hnext hlive
      exact ⟨hlisting, hlive, hview⟩
  | create maker other junk =>
      obtain ⟨hlisting, hfresh, hview⟩ := h.create hstep
      exact ⟨hlisting, hlive, hfresh, hview⟩

end Events

end OperateSystem.Newfs

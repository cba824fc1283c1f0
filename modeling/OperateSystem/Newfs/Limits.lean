import OperateSystem.Core.Trace
import OperateSystem.Newfs.Run
import OperateSystem.Newfs.Tree

/-!
# Running out of inodes and blocks

Both allocators report that nothing is left, the one by a null inode and the other
by a negative number, and the calls that create look at neither.  A call is
therefore harmless just when both have something to give, below the number of
inodes that the disk has.
-/

namespace OperateSystem.Newfs

open OperateSystem.Bitmap
open OperateSystem.ByteStore
open OperateSystem.Traces

/-- A creating call, or a remount. -/
inductive Call
  | make (maker : Maker) (path : List Byte) (junk : Junk)
  | remount (junk junk' : Junk)

def Call.run (fs : Fs) : Call → Option (Fs × Int)
  | make maker path junk => maker.call fs path junk
  | remount junk junk' => ((Op.remount junk junk').run fs).map fun fs' => (fs', 0)

def CallStep (fs : Fs) (call : Call) (fs' : Fs) : Prop := ∃ ret, call.run fs = some (fs', ret)

/-- The call comes to create: its lookup finds nothing and ends at the directory `last`
with this inode, and `dentry` is the new dentry. -/
structure Makes (fs : Fs) (maker : Maker) (path : List Byte) (last : DentryPtr) (inode : Inode)
    (dentry : Dentry) : Prop where
  looked : ∃ found, lookup fs path = some (fs, found) ∧ found.isFind = some false ∧
    found.dentry = last
  opened : Open fs.heap last inode
  made : ∃ fname ftype, getFname path = some fname ∧ maker.fileType = some ftype ∧
    newDentry fname ftype = some dentry

/-- One of the two allocations of the call reports `NEWFS_ERROR_NOSPACE`. -/
def ReportsNospace (fs : Fs) (inode : Inode) (dentry : Dentry) (junk : Junk) : Prop :=
  (allocInode (blksSz fs.disk.szIo) fs.super dentry junk).2.inode = none ∨
    (allocDentry (blksSz fs.disk.szIo)
      (allocInode (blksSz fs.disk.szIo) fs.super dentry junk).1 inode fs.heap.length).2.2
      = -errorNospace

/-- The number that the call gives to the dentry, and all bits of the inode bitmap, stay
below the number of inodes; and when an allocation fails, the call returns an error
and leaves the directory and both bitmaps alone. -/
structure Harmless (fs : Fs) (call : Call) (fs' : Fs) : Prop where
  bits : ∀ i : ℕ, inodeNum ≤ i → bit fs'.super.mapInode i = false
  number : ∀ maker path junk last inode dentry, call = .make maker path junk →
    Makes fs maker path last inode dentry →
    (allocInode (blksSz fs.disk.szIo) fs.super dentry junk).2.ino < inodeNum
  reported : ∀ maker path junk last inode dentry, call = .make maker path junk →
    Makes fs maker path last inode dentry → ReportsNospace fs inode dentry junk →
    ∃ ret, call.run fs = some (fs', ret) ∧ ret < 0 ∧
      fs'.super.mapInode = fs.super.mapInode ∧ fs'.super.mapData = fs.super.mapData ∧
      Open fs'.heap last inode

/-- A number below the number of inodes and a data bit are left for the call, and they are
not the ones that the limits exclude. -/
def HasSpace (fs : Fs) : Call → Prop
  | .make maker path _ =>
      ∀ last inode dentry, Makes fs maker path last inode dentry →
        (∃ c mapInode, claimBit fs.super.mapInode 0 = some (c, mapInode) ∧
          (c : Int) < inodeNum ∧ (c : Int) ≠ fs.super.maxIno) ∧
        ∃ c mapData, claimBit fs.super.mapData 0 = some (c, mapData) ∧
          (c : Int) ≠ fs.super.maxData
  | .remount _ _ => True

/-- A size that an `int` holds and a count that is not negative. -/
def Sane (_ : FileType) (inode : Inode) : Prop :=
  (-2 ^ 31 ≤ inode.size ∧ inode.size < 2 ^ 31) ∧ 0 ≤ inode.dirCnt

section Allocators

variable {super : Super} {inode : Inode} {dentry : Dentry} {ftype : FileType}

theorem allocDentry_sane (h : Sane ftype inode) (super : Super) (ptr : DentryPtr) :
    Sane ftype (allocDentry 1024 super inode ptr).2.1 := by
  obtain ⟨⟨hlo, hhi⟩, hcount⟩ := h
  cases hclaim : claimBit super.mapData 0 with
  | none =>
      rw [allocDentry_full ptr hlo hhi hclaim]
      exact ⟨⟨hlo, hhi⟩, hcount⟩
  | some claim =>
      rw [allocDentry_claim ptr hlo hhi hclaim]
      split
      · exact ⟨⟨hlo, hhi⟩, hcount⟩
      · exact ⟨toInt32_range _, by simp only; omega⟩

/-- Linking an entry reports that nothing is left unless a bit is claimed that is not
number `max_data`. -/
theorem allocDentry_reports (h : Sane ftype inode) (super : Super) (ptr : DentryPtr) :
    (allocDentry 1024 super inode ptr).2.2 = -errorNospace ↔
      ¬ ∃ c mapData, claimBit super.mapData 0 = some (c, mapData) ∧ (c : Int) ≠ super.maxData := by
  obtain ⟨⟨hlo, hhi⟩, hcount⟩ := h
  cases hclaim : claimBit super.mapData 0 with
  | none =>
      rw [allocDentry_full ptr hlo hhi hclaim]
      simp
  | some claim =>
      rw [allocDentry_claim ptr hlo hhi hclaim]
      by_cases hlimit : (claim.1 : Int) = super.maxData
      · simp only [hlimit, if_true, true_iff]
        rintro ⟨c, mapData, hsome, hne⟩
        cases hsome
        exact hne hlimit
      · simp only [hlimit, if_false]
        refine iff_of_false ?_ (not_not.mpr ⟨claim.1, claim.2, rfl, hlimit⟩)
        rw [errorNospace]
        omega

/-- Allocating an inode reports that nothing is left unless a bit is claimed that is not
number `max_ino`. -/
theorem allocInode_reports (hnull : dentry.inode = none) (blks : Int) (junk : Junk) :
    (allocInode blks super dentry junk).2.inode = none ↔
      ¬ ∃ c mapInode, claimBit super.mapInode 0 = some (c, mapInode) ∧
        (c : Int) ≠ super.maxIno := by
  rw [allocInode]
  cases hclaim : claimBit super.mapInode 0 with
  | none => simp [hnull]
  | some claim =>
      by_cases hlimit : (claim.1 : Int) = super.maxIno
      · simp only [hlimit, if_true, hnull, true_iff]
        rintro ⟨c, mapInode, hsome, hne⟩
        cases hsome
        exact hne hlimit
      · simp only [hlimit, if_false]
        exact iff_of_false (by simp) (not_not.mpr ⟨claim.1, claim.2, rfl, hlimit⟩)

/-- An inode that is allocated has the number of the bit that is claimed. -/
theorem allocInode_claim {c : ℕ} {mapInode : List Byte}
    (hclaim : claimBit super.mapInode 0 = some (c, mapInode)) (hlimit : (c : Int) ≠ super.maxIno)
    (blks : Int) (junk : Junk) :
    (allocInode blks super dentry junk).1.mapInode = mapInode ∧
      (allocInode blks super dentry junk).2.ino = c := by
  rw [allocInode, hclaim]
  simp [hlimit]

theorem allocDentry_mapInode (blks : Int) (super : Super) (inode : Inode) (ptr : DentryPtr) :
    (allocDentry blks super inode ptr).1.mapInode = super.mapInode := by
  rw [allocDentry]
  cases hscan : (if needsDataBlock inode.size blks then claimBit super.mapData 0 else none) with
  | none => rfl
  | some claim => by_cases hlimit : (claim.1 : Int) = super.maxData <;> simp [hlimit]

end Allocators

section Loading

variable {fs fs' : Fs}

/-- Loading entries keeps the inode bitmap and a sane inode. -/
theorem readDentrys_limits {ino i : Int} {count : ℕ} {inode inode' : Inode} {ftype : FileType}
    (hdisk : Geometry fs.disk) (hsane : Sane ftype inode)
    (h : readDentrys ino count i fs inode = some (fs', inode')) :
    fs'.super.mapInode = fs.super.mapInode ∧ Sane ftype inode' := by
  induction count generalizing i fs inode with
  | zero =>
      cases h
      exact ⟨rfl, hsane⟩
  | succ count ih =>
      obtain ⟨bytes, sub, -, -, hrest⟩ := readDentrys_succ h
      rw [hdisk.blks] at hrest
      obtain ⟨hmap, hlast⟩ := ih (by exact hdisk) (allocDentry_sane hsane _ _) hrest
      exact ⟨hmap.trans (allocDentry_mapInode _ _ _ _), hlast⟩

theorem readInode_limits {ftype : FileType} {ino : Int} {inode : Inode}
    (hdisk : Geometry fs.disk) (h : readInode fs ftype ino = some (fs', inode)) :
    fs'.super.mapInode = fs.super.mapInode ∧ Sane ftype inode := by
  obtain ⟨bytes, -, ⟨-, hrest⟩ | ⟨-, rfl, data, -, rfl⟩ | ⟨-, -, rfl, rfl⟩⟩ := readInode_some h
  · exact readDentrys_limits hdisk ⟨decodeInt_range _, le_refl 0⟩ hrest
  · exact ⟨rfl, decodeInt_range _, le_refl 0⟩
  · exact ⟨rfl, decodeInt_range _, le_refl 0⟩

theorem rootInode_sane (bytes : ℕ → Byte) : Sane .dir (rootInode bytes) :=
  ⟨rootInode_size_range bytes, le_refl 0⟩

end Loading

/-- What holds as long as every call was harmless. -/
structure Limited (fs : Fs) : Prop where
  mounted : Mounted fs
  bits : ∀ i : ℕ, inodeNum ≤ i → bit fs.super.mapInode i = false
  sane : Each Sane fs

section Calls

variable {fs fs' : Fs} (h : Limited fs)

include h

theorem Limited.load {ptr : DentryPtr} (hload : loadInode fs ptr = some fs') : Limited fs' := by
  refine ⟨h.mounted.grows (loadInode_grows hload), ?_, h.sane.load ?_ hload⟩
  · have hmap : fs'.super.mapInode = fs.super.mapInode := by
      obtain ⟨dentry, -, ⟨-, rfl⟩ | ⟨-, fs₁, inode, hread, rfl⟩⟩ := loadInode_some hload
      · rfl
      · exact (readInode_limits h.mounted.geometry hread).1
    rw [hmap]
    exact h.bits
  · intro dentry fs₁ inode _ _ hread
    exact (readInode_limits h.mounted.geometry hread).2

omit h in
/-- The inode bitmap after a creation is the one that the allocation of the inode left. -/
theorem create_mapInode {last : DentryPtr} {dentry : Dentry} {junk : Junk}
    (hcreate : Newfs.create fs last dentry junk = some fs') :
    fs'.super.mapInode
      = (allocInode (blksSz fs.disk.szIo) fs.super dentry junk).1.mapInode := by
  obtain ⟨d, inode, -, -, super, added, super', linked, halloc, ⟨ret, hlink⟩, rfl⟩ :=
    create_some hcreate
  have hmap := allocDentry_mapInode (blksSz fs.disk.szIo) super inode fs.heap.length
  rw [hlink] at hmap
  rw [halloc]
  exact hmap

omit h in
/-- A call creates one dentry in one directory. -/
theorem Makes.unique {maker : Maker} {path : List Byte} {last last' : DentryPtr}
    {inode inode' : Inode} {dentry dentry' : Dentry}
    (hmakes : Makes fs maker path last inode dentry)
    (hmakes' : Makes fs maker path last' inode' dentry') :
    last' = last ∧ inode' = inode ∧ dentry' = dentry := by
  obtain ⟨⟨found, hlookup, -, rfl⟩, hopen, fname, ftype, hfname, hftype, hdentry⟩ := hmakes
  obtain ⟨⟨found', hlookup', -, rfl⟩, hopen', fname', ftype', hfname', hftype', hdentry'⟩ := hmakes'
  rw [hlookup] at hlookup'
  cases hlookup'
  rw [hfname] at hfname'
  cases hfname'
  rw [hftype] at hftype'
  cases hftype'
  rw [hdentry] at hdentry'
  cases hdentry'
  exact ⟨rfl, hopen'.unique hopen, rfl⟩

/-- When one of the allocations of a call reports that nothing is left. -/
theorem Limited.reports_iff {maker : Maker} {path : List Byte} {last : DentryPtr} {inode : Inode}
    {dentry : Dentry} (hmakes : Makes fs maker path last inode dentry) (junk : Junk) :
    ReportsNospace fs inode dentry junk ↔
      ¬ ((∃ c mapInode, claimBit fs.super.mapInode 0 = some (c, mapInode) ∧
          (c : Int) ≠ fs.super.maxIno) ∧
        ∃ c mapData, claimBit fs.super.mapData 0 = some (c, mapData) ∧
          (c : Int) ≠ fs.super.maxData) := by
  obtain ⟨-, hopen, fname, ftype, -, -, hdentry⟩ := hmakes
  have hnull : dentry.inode = none := by
    obtain ⟨-, rfl⟩ := newDentry_some hdentry
    rfl
  have hsane : Sane .dir inode := by
    obtain ⟨d, hd, hdir, hinode⟩ := hopen
    exact hdir ▸ h.sane last d inode hd hinode
  have hmap := allocInode_mapData (blksSz fs.disk.szIo) fs.super dentry junk
  rw [ReportsNospace, h.mounted.geometry.blks] at *
  rw [allocInode_reports hnull, allocDentry_reports hsane, hmap.1, hmap.2]
  exact not_and_or.symm

/-- A call that creates is harmless just when both allocators have something to give. -/
theorem Limited.create {maker : Maker} {path : List Byte} {junk : Junk} {last : DentryPtr}
    {inode : Inode} {dentry : Dentry} (hmakes : Makes fs maker path last inode dentry)
    (hcreate : Newfs.create fs last dentry junk = some fs')
    (hrun : maker.call fs path junk = some (fs', 0)) :
    (Harmless fs (.make maker path junk) fs' ↔ HasSpace fs (.make maker path junk)) ∧
      (HasSpace fs (.make maker path junk) → Limited fs') := by
  have hreports := h.reports_iff hmakes junk
  have hbits : ∀ {c : ℕ} {mapInode : List Byte},
      claimBit fs.super.mapInode 0 = some (c, mapInode) → (c : Int) < inodeNum →
      (c : Int) ≠ fs.super.maxIno → ∀ i : ℕ, inodeNum ≤ i → bit fs'.super.mapInode i = false := by
    intro c mapInode hclaim hlt hlimit i hi
    have hne : i ≠ c := by omega
    rw [create_mapInode hcreate, (allocInode_claim hclaim hlimit _ junk).1,
      (claimBit_some (by decide) hclaim).bit_eq, h.bits i hi]
    simpa using hne
  constructor
  · constructor
    · intro hharmless last' inode' dentry' _
      have hquiet : ¬ ReportsNospace fs inode dentry junk := by
        intro hreport
        obtain ⟨ret, hret, hneg, -⟩ :=
          hharmless.reported maker path junk last inode dentry rfl hmakes hreport
        have hzero : ret = 0 := by
          have hsame := hret.symm.trans hrun
          simpa using hsame
        omega
      obtain ⟨⟨c, mapInode, hclaim, hlimit⟩, hdata⟩ := not_not.mp (hreports.not.mp hquiet)
      have hnumber := hharmless.number maker path junk last inode dentry rfl hmakes
      rw [(allocInode_claim hclaim hlimit _ junk).2] at hnumber
      exact ⟨⟨c, mapInode, hclaim, hnumber, hlimit⟩, hdata⟩
    · intro hspace
      obtain ⟨⟨c, mapInode, hclaim, hlt, hlimit⟩, hdata⟩ := hspace last inode dentry hmakes
      have hquiet : ¬ ReportsNospace fs inode dentry junk :=
        fun hreport => hreports.mp hreport ⟨⟨c, mapInode, hclaim, hlimit⟩, hdata⟩
      refine ⟨hbits hclaim hlt hlimit, ?_, ?_⟩
      · rintro maker' path' junk' last' inode' dentry' ⟨⟩ hmakes'
        obtain ⟨-, -, rfl⟩ := hmakes.unique hmakes'
        rw [(allocInode_claim hclaim hlimit _ junk).2]
        exact hlt
      · rintro maker' path' junk' last' inode' dentry' ⟨⟩ hmakes' hreport
        obtain ⟨-, rfl, rfl⟩ := hmakes.unique hmakes'
        exact absurd hreport hquiet
  · intro hspace
    obtain ⟨⟨c, mapInode, hclaim, hlt, hlimit⟩, -⟩ := hspace last inode dentry hmakes
    refine ⟨h.mounted.grows (create_grows hcreate), hbits hclaim hlt hlimit, ?_⟩
    obtain ⟨-, -, fname, ftype, -, -, hdentry⟩ := hmakes
    obtain ⟨-, rfl⟩ := newDentry_some hdentry
    refine h.sane.create rfl (fun _ _ => ⟨⟨by simp, by simp⟩, le_refl 0⟩) ?_ hcreate
    intro d i super _ _ _ _ hsane
    rw [h.mounted.geometry.blks]
    exact allocDentry_sane hsane super fs.heap.length

/-- A creating call. -/
theorem Limited.make {maker : Maker} {path : List Byte} {junk : Junk} {ret : Int}
    (hrun : maker.call fs path junk = some (fs', ret)) :
    (Harmless fs (.make maker path junk) fs' ↔ HasSpace fs (.make maker path junk)) ∧
      (HasSpace fs (.make maker path junk) → Limited fs') := by
  by_cases hret : ret = 0
  · subst hret
    obtain ⟨found, inode, fname, ftype, dentry, hlookup, hmiss, hopen, hfname, hftype, hdentry,
      hcreate⟩ := Maker.call_zero hrun
    exact h.create ⟨⟨found, hlookup, hmiss, rfl⟩, hopen, fname, ftype, hfname, hftype, hdentry⟩
      hcreate hrun
  · -- The lookup has found something, so nothing is allocated.
    obtain ⟨found, hlookup, hfind⟩ := Maker.call_error hrun hret
    have hnone : ∀ {last : DentryPtr} {inode : Inode} {dentry : Dentry},
        ¬ Makes fs maker path last inode dentry := by
      rintro last inode dentry ⟨⟨found', hlookup', hmiss, -⟩, -, -⟩
      rw [hlookup] at hlookup'
      cases hlookup'
      rw [hfind] at hmiss
      cases hmiss
    have hlimited := h.load (lookup_some hlookup).2.1
    refine ⟨iff_of_true ⟨hlimited.bits, ?_, ?_⟩ ?_, fun _ => hlimited⟩
    · rintro maker' path' junk' last inode dentry ⟨⟩ hmakes
      exact absurd hmakes hnone
    · rintro maker' path' junk' last inode dentry ⟨⟩ hmakes
      exact absurd hmakes hnone
    · exact fun last inode dentry hmakes => absurd hmakes hnone

/-- A remount. -/
theorem Limited.remount {junk junk' : Junk} (hrun : (Op.remount junk junk').run fs = some fs') :
    Limited fs' := by
  obtain ⟨disk, hdestroy, hinit⟩ := remount_some hrun
  obtain ⟨himage, hmapInode, -⟩ := destroy_image h.mounted hdestroy
  obtain ⟨hmounted, -, -⟩ := init_image_mounted himage hinit
  obtain ⟨fs₁, inode, more, hread, hheap, hnull, rfl⟩ := init_image_some himage hinit
  obtain ⟨hmap, hsane⟩ := readDentrys_limits himage.geometry (rootInode_sane disk.bytes) hread
  refine ⟨hmounted, ?_, ?_⟩
  · have hsame : fs₁.super.mapInode = fs.super.mapInode := hmap.trans hmapInode
    intro i hi
    change bit fs₁.super.mapInode i = false
    rw [hsame]
    exact h.bits i hi
  · intro ptr dentry i hptr hi
    rw [heap_setInode (by rw [hheap]; rfl)] at hptr
    split at hptr
    · cases hptr
      cases hi
      exact hsane
    · rename_i hne
      rw [hheap, List.getElem?_cons, if_neg (fun hzero => hne hzero.symm)] at hptr
      rw [hnull dentry (List.mem_of_getElem? hptr)] at hi
      cases hi

/-- A call is harmless just when it has space. -/
theorem Limited.step {call : Call} (hstep : CallStep fs call fs') :
    (Harmless fs call fs' ↔ HasSpace fs call) ∧ (HasSpace fs call → Limited fs') := by
  obtain ⟨ret, hrun⟩ := hstep
  cases call with
  | make maker path junk => exact h.make hrun
  | remount junk junk' =>
      obtain ⟨_, hremount, heq⟩ := Option.map_eq_some_iff.mp hrun
      cases heq
      have hlimited := h.remount hremount
      exact ⟨iff_of_true ⟨hlimited.bits, by simp, by simp⟩ trivial, fun _ => hlimited⟩

end Calls

theorem freshFs_limited {szIo : ℕ} (hszIo : szIo ∣ 1024) (junk : Junk) {mapInode : List Byte}
    (hclaimed : Claimed (slice (fun _ => (0 : Byte)) 1024 1024) 0 mapInode) :
    Limited (freshFs szIo junk mapInode) := by
  refine ⟨freshFs_mounted hszIo junk hclaimed, ?_, ?_⟩
  · intro i hi
    have hne : i ≠ 0 := by
      rintro rfl
      exact absurd hi (by decide)
    change bit mapInode i = false
    rw [hclaimed.bit_eq, bit_zeros]
    simpa using hne
  · intro ptr dentry inode hptr hinode
    have hmem : dentry = freshRoot := List.mem_singleton.mp (List.mem_of_getElem? hptr)
    subst hmem
    cases hinode
    exact ⟨⟨by decide, by decide⟩, le_refl 0⟩

/-- In a run of creating calls and remounts from a blank device, every call is harmless
just when every call had space. -/
theorem nospace_harmless_iff {szIo : ℕ} (hszIo : szIo ∣ 1024) {junk : Junk} {fs₀ fs : Fs}
    (hinit : init (blankDisk szIo) junk = some fs₀) {calls : List (Fs × Call × Fs)}
    (hrun : Trace CallStep fs₀ calls fs) :
    ((∀ i : ℕ, inodeNum ≤ i → bit fs₀.super.mapInode i = false) ∧
        ∀ e ∈ calls, Harmless e.1 e.2.1 e.2.2) ↔
      ∀ e ∈ calls, HasSpace e.1 e.2.1 := by
  obtain ⟨mapInode, hclaimed, hfresh⟩ := init_blank hszIo junk
  rw [hfresh] at hinit
  cases hinit
  have hlimited := freshFs_limited hszIo junk hclaimed
  have hiff : (∀ e ∈ calls, Harmless e.1 e.2.1 e.2.2) ↔ ∀ e ∈ calls, HasSpace e.1 e.2.1 :=
    hrun.forall_iff Limited hlimited fun before call after h hstep => h.step hstep
  exact (and_iff_right hlimited.bits).trans hiff

/-- `mkdir /a` on a blank device. -/
def blankDir : Option (Fs × Fs × Int) :=
  (init (blankDisk 512) fun _ => 0).bind fun fs₀ =>
    (mkdir fs₀ (pathOf [[97]]) fun _ => 0).map fun call => (fs₀, call)

/-- `mkdir /a` on a blank device that was remounted first. -/
def blankRemountDir : Option (Fs × Fs × Fs × Int) :=
  (init (blankDisk 512) fun _ => 0).bind fun fs₀ =>
    ((Op.remount (fun _ => 0) fun _ => 0).run fs₀).bind fun fs₁ =>
      (mkdir fs₁ (pathOf [[97]]) fun _ => 0).map fun call => (fs₀, fs₁, call)

theorem blankDir_counts :
    (blankDir.map fun run =>
      ((claimBit run.1.super.mapInode 0).map Prod.fst,
        (claimBit run.1.super.mapData 0).map Prod.fst,
        run.1.super.maxIno, run.1.super.maxData)) = some (some 1, some 0, 3968, 3968) := by
  decide +kernel

theorem blankRemountDir_counts :
    (blankRemountDir.map fun run =>
      ((claimBit run.2.1.super.mapData 0).map Prod.fst, run.2.1.super.maxData, run.2.2.2))
        = some (some 0, 0, 0) := by
  decide +kernel

/-- On a blank device the first number is left and no limit is near. -/
theorem nospace_harmless_first :
    ∃ fs₀ fs₁ ret, blankDir = some (fs₀, fs₁, ret) ∧
      Harmless fs₀ (.make .mkdir (pathOf [[97]]) fun _ => 0) fs₁ := by
  obtain ⟨⟨fs₀, fs₁, ret⟩, hfirst, hcounts⟩ := Option.map_eq_some_iff.mp blankDir_counts
  simp only [Prod.mk.injEq] at hcounts
  obtain ⟨hino, hdata, hmaxIno, hmaxData⟩ := hcounts
  obtain ⟨fs, hinit, hcall⟩ := Option.bind_eq_some_iff.mp hfirst
  obtain ⟨call, hmkdir, heq⟩ := Option.map_eq_some_iff.mp hcall
  cases heq
  refine ⟨fs₀, fs₁, ret, hfirst, ?_⟩
  have hstep : CallStep fs₀ (.make .mkdir (pathOf [[97]]) fun _ => 0) fs₁ := ⟨ret, hmkdir⟩
  refine ((nospace_harmless_iff (by decide) hinit (.snoc .nil hstep)).mpr ?_).2
    (fs₀, _, fs₁) (List.mem_singleton.mpr rfl)
  intro e he
  rw [List.mem_singleton.mp he]
  intro last inode dentry _
  obtain ⟨⟨c, mapInode⟩, hclaimIno, rfl⟩ := Option.map_eq_some_iff.mp hino
  obtain ⟨⟨d, mapData⟩, hclaimData, rfl⟩ := Option.map_eq_some_iff.mp hdata
  refine ⟨⟨1, mapInode, hclaimIno, by decide, ?_⟩, 0, mapData, hclaimData, ?_⟩
  · rw [hmaxIno]
    decide
  · rw [hmaxData]
    decide

/-- A remount leaves both limits at 0, so the first data block counts as none, but
`mkdir /a` returns 0. -/
theorem nospace_not_harmless :
    ∃ fs₀ fs₁ fs₂ ret, blankRemountDir = some (fs₀, fs₁, fs₂, ret) ∧
      init (blankDisk 512) (fun _ => 0) = some fs₀ ∧
      Trace CallStep fs₀ [(fs₁, .make .mkdir (pathOf [[97]]) fun _ => 0, fs₂),
        (fs₀, .remount (fun _ => 0) fun _ => 0, fs₁)] fs₂ ∧
      ¬ Harmless fs₁ (.make .mkdir (pathOf [[97]]) fun _ => 0) fs₂ := by
  obtain ⟨⟨fs₀, fs₁, fs₂, ret⟩, htwo, hcounts⟩ := Option.map_eq_some_iff.mp blankRemountDir_counts
  simp only [Prod.mk.injEq] at hcounts
  obtain ⟨hdata, hmaxData, rfl⟩ := hcounts
  obtain ⟨fs, hinit, hrest⟩ := Option.bind_eq_some_iff.mp htwo
  obtain ⟨fs', hremount, hrest⟩ := Option.bind_eq_some_iff.mp hrest
  obtain ⟨call, hmkdir, heq⟩ := Option.map_eq_some_iff.mp hrest
  cases heq
  have hfirst : CallStep fs₀ (.remount (fun _ => 0) fun _ => 0) fs₁ := by
    refine ⟨0, ?_⟩
    rw [Call.run, hremount]
    rfl
  refine ⟨fs₀, fs₁, fs₂, 0, htwo, hinit, .snoc (.snoc .nil hfirst) ⟨0, hmkdir⟩, ?_⟩
  intro hharmless
  have hlimited : Limited fs₀ := by
    obtain ⟨mapInode, hclaimed, hfresh⟩ := init_blank (show 512 ∣ 1024 by decide) fun _ => 0
    rw [hfresh] at hinit
    cases hinit
    exact freshFs_limited (by decide) (fun _ => 0) hclaimed
  have hcall : Maker.call .mkdir fs₁ (pathOf [[97]]) (fun _ => 0) = some (fs₂, 0) := hmkdir
  obtain ⟨found, inode, fname, ftype, dentry, hlookup, hmiss, hopen, hfname, hftype, hdentry, -⟩ :=
    Maker.call_zero hcall
  have hspace := ((hlimited.remount hremount).make hcall).1.mp hharmless
  obtain ⟨-, c, mapData, hclaim, hlimit⟩ := hspace found.dentry inode dentry
    ⟨⟨found, hlookup, hmiss, rfl⟩, hopen, fname, ftype, hfname, hftype, hdentry⟩
  rw [hclaim] at hdata
  cases hdata
  exact hlimit hmaxData.symm

end OperateSystem.Newfs

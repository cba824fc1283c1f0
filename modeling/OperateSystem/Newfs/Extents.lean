import OperateSystem.Newfs.Chart
import OperateSystem.Newfs.Writes

/-!
# The extents that unmounting writes

The address of an inode's data is computed from its number alone, so nothing but the
number of entries, the size of a file and the range of the numbers keeps one object
out of the next.  As long as every call leaves room for what it adds, each write of an
unmount stays on the device and in the extent of its object.
-/

namespace OperateSystem.Newfs

open OperateSystem.Bitmap
open OperateSystem.ByteStore
open OperateSystem.Invariant

/-- Whatever unmounting writes now is on the device and in the extent of its object, the
writes of different objects are disjoint, and no file is larger than its extent. -/
structure Separate (fs : Fs) : Prop where
  writes : ∀ junk, ∃ writes, destroyWrites fs junk = some writes ∧
    (∀ write ∈ writes, ∀ addr, write.Touches fs.disk.szIo addr →
      0 ≤ addr ∧ addr < fs.disk.size) ∧
    (∀ write ∈ writes, ∀ addr, write.Covers addr → write.object.Owns fs.disk.szIo addr) ∧
    ∀ write ∈ writes, ∀ write' ∈ writes, write.object ≠ write'.object →
      ∀ addr, ¬ (write.Covers addr ∧ write'.Covers addr)
  sizes : ∀ (ptr : DentryPtr) (dentry : Dentry) (inode : Inode), fs.heap[ptr]? = some dentry →
    dentry.inode = some inode → dentry.ftype = .file →
    inode.size ≤ dataPerFile * blksSz fs.disk.szIo

/-- The entry that the call makes, if any, has room in the data region of its directory
and on the device, and a number below the number of inodes is left for it. -/
def RoomToMake (fs : Fs) (maker : Maker) (path : List Byte) : Prop :=
  ∀ last inode dentry, Makes fs maker path last inode dentry →
    (inode.dentrys.length + 1) * sizeofDentryD ≤ dataPerFile * blksSz fs.disk.szIo ∧
    daOfs inode.ino + (inode.dentrys.length + 1) * sizeofDentryD ≤ fs.disk.size ∧
    ∃ c mapInode, claimBit fs.super.mapInode 0 = some (c, mapInode) ∧ (c : Int) < inodeNum ∧
      (c : Int) ≠ fs.super.maxIno

/-- What the file holds after the write, in whole blocks, has room in its data region and
on the device. -/
def RoomToWrite (fs : Fs) (path buf : List Byte) (offset : Int) : Prop :=
  ∀ fs₁ found dentry inode, lookup fs path = some (fs₁, found) → found.isFind = some true →
    fs₁.heap[found.dentry]? = some dentry → dentry.inode = some inode → dentry.ftype = .file →
    offset ≤ inode.size →
    max inode.size (offset + buf.length) ≤ dataPerFile * blksSz fs.disk.szIo ∧
      (max inode.size (offset + buf.length) = 0 ∨
        daOfs inode.ino + roundUp (max inode.size (offset + buf.length)) (blksSz fs.disk.szIo)
          ≤ fs.disk.size)

/-- The call leaves room for what it adds. -/
def Roomy (fs : Fs) : Op → Prop
  | .mkdir path _ => RoomToMake fs .mkdir path
  | .mknod path mode _ => RoomToMake fs (.mknod mode) path
  | .write path buf offset => RoomToWrite fs path buf offset
  | _ => True

/-- A call that leaves room. -/
def RoomyStep (fs fs' : Fs) : Prop := ∃ op : Op, Roomy fs op ∧ op.run fs = some fs'

/-- A write of an unmount, where it belongs. -/
inductive Placed : Write → Prop
  | super (content : List Byte) : Placed ⟨.super, superOfs, content, sizeofSuperD⟩
  | mapInode (content : List Byte) : Placed ⟨.mapInode, mapInodeOfs, content, 1024⟩
  | mapData (content : List Byte) : Placed ⟨.mapData, mapDataOfs, content, 1024⟩
  | slot {ino : ℕ} (hlt : ino < 3968) (content : List Byte) :
      Placed ⟨.slot ino, inoOfs ino, content, sizeofInodeD⟩
  | entry {ino i : ℕ} (hlt : ino < 3968) (hfits : Fits ino (140 * ((i + 1 : ℕ) : Int)))
      (content : List Byte) :
      Placed ⟨.data ino, daOfs ino + i * sizeofDentryD, content, sizeofDentryD⟩
  | data {ino : ℕ} {size : Int} (hlt : ino < 3968) (hfits : Fits ino size)
      (content : List Byte) : Placed ⟨.data ino, daOfs ino, content, size⟩

section Listing

variable {kinds : Kinds} {heap : List Dentry} {junk : Junk} {szIo : ℕ}

/-- The loop over the entries lists writes that are placed when the recursive calls do. -/
theorem dentrysWrites_placed {ino : ℕ} (hlt : ino < 3968)
    {below : Dentry → Option (List Write)} {ptrs : List DentryPtr} {j : ℕ}
    (hfits : Fits ino (140 * ((j + ptrs.length : ℕ) : Int)))
    (hbelow : ∀ ptr ∈ ptrs, ∃ sub, heap[ptr]? = some sub ∧ (sub.inode.isSome →
      ∃ writes, below sub = some writes ∧ ∀ write ∈ writes, Placed write)) :
    ∃ writes, dentrysWrites heap junk ino below ptrs (daOfs ino + j * sizeofDentryD)
      = some writes ∧ ∀ write ∈ writes, Placed write := by
  induction ptrs generalizing j with
  | nil => exact ⟨[], rfl, by simp⟩
  | cons ptr ptrs ih =>
      obtain ⟨sub, hsub, hrec⟩ := hbelow ptr List.mem_cons_self
      rw [List.length_cons] at hfits
      have hshift : daOfs ino + j * sizeofDentryD + sizeofDentryD
          = daOfs ino + ((j + 1 : ℕ) : Int) * sizeofDentryD := by
        push_cast
        rw [Int.add_mul]
        omega
      have hfits' : Fits ino (140 * ((j + 1 + ptrs.length : ℕ) : Int)) :=
        hfits.mono (by omega) (by omega)
      obtain ⟨rest, hrest, hplaced⟩ := ih hfits' fun p hp => hbelow p (List.mem_cons_of_mem _ hp)
      have hinner : ∃ inner, (if sub.inode.isSome then below sub else some []) = some inner ∧
          ∀ write ∈ inner, Placed write := by
        split
        · rename_i hloaded
          exact hrec hloaded
        · exact ⟨[], rfl, by simp⟩
      obtain ⟨inner, hinner, hplaced'⟩ := hinner
      have hlist : dentrysWrites heap junk ino below (ptr :: ptrs) (daOfs ino + j * sizeofDentryD)
          = some (⟨.data ino, daOfs ino + j * sizeofDentryD, DentryD.encode
              ⟨sub.fname, sub.ftype, sub.ino⟩ junk (daOfs ino + j * sizeofDentryD).toNat,
              sizeofDentryD⟩ :: inner ++ rest) := by
        simp only [dentrysWrites, hsub, hshift, hrest, Option.bind_eq_bind, Option.bind_some]
        rw [hinner]
        rfl
      refine ⟨_, hlist, ?_⟩
      intro write hwrite
      rcases List.mem_append.mp hwrite with hfront | hback
      · rcases List.mem_cons.mp hfront with rfl | hmem
        · exact .entry hlt (hfits.mono (by omega) (by omega)) _
        · exact hplaced' write hmem
      · exact hplaced write hback

/-- The writes of a flush are placed; the entries lie further up the arena, so there is fuel
enough. -/
theorem inodeWrites_placed (hheap : HeapTyped kinds heap) (hblks : blksSz szIo = 1024)
    (hentry : ∀ ptr sub : ℕ, Entry heap ptr sub → ptr < sub ∧ sub < heap.length)
    {fuel ptr : ℕ} {dentry : Dentry} (hptr : heap[ptr]? = some dentry)
    (hloaded : dentry.inode.isSome) (hfuel : heap.length ≤ ptr + fuel) :
    ∃ writes, inodeWrites heap junk szIo fuel dentry = some writes ∧
      ∀ write ∈ writes, Placed write := by
  induction fuel generalizing ptr dentry with
  | zero =>
      have hlt := (List.getElem?_eq_some_iff.mp hptr).1
      omega
  | succ fuel ih =>
      obtain ⟨inode, hinode⟩ := Option.isSome_iff_exists.mp hloaded
      obtain ⟨ino, hkind, hshape⟩ := hheap.shape ptr dentry inode hptr hinode
      have hlt := kinds.lt ino _ hkind
      have hrest : ∃ rest, contentWrites heap junk szIo (inodeWrites heap junk szIo fuel)
          dentry.ftype inode = some rest ∧ ∀ write ∈ rest, Placed write := by
        rcases kinds.plain ino _ hkind with hdir | hfile
        · obtain ⟨hfits, -, -⟩ := hshape.dir hdir
          have hfirst : daOfs ino = daOfs ino + ((0 : ℕ) : Int) * sizeofDentryD := by simp
          rw [hdir, contentWrites, hshape.ino_eq, hfirst]
          refine dentrysWrites_placed hlt (by rwa [Nat.zero_add]) ?_
          intro sub hmem
          obtain ⟨hbefore, hin⟩ := hentry ptr sub ⟨dentry, inode, hptr, hinode, hmem⟩
          have hsub := List.getElem?_eq_getElem hin
          exact ⟨_, hsub, fun hsubLoaded => ih hsub hsubLoaded (by omega)⟩
        · obtain ⟨-, hfits, -⟩ := hshape.file hfile
          rw [hfile, contentWrites, hblks, hshape.ino_eq]
          refine ⟨_, rfl, ?_⟩
          intro write hwrite
          rw [List.mem_singleton.mp hwrite]
          exact .data hlt hfits _
      obtain ⟨rest, hrest, hplaced⟩ := hrest
      have hlist : inodeWrites heap junk szIo (fuel + 1) dentry
          = some (⟨.slot inode.ino, inoOfs inode.ino, InodeD.encode
              ⟨inode.ino, inode.size, dentry.ftype, inode.dirCnt⟩ junk (inoOfs inode.ino).toNat,
              sizeofInodeD⟩ :: rest) := by
        simp only [inodeWrites, hinode, Option.bind_eq_bind, Option.bind_some]
        rw [hrest]
        rfl
      refine ⟨_, hlist, ?_⟩
      intro write hwrite
      rcases List.mem_cons.mp hwrite with rfl | hmem
      · rw [hshape.ino_eq]
        exact .slot hlt _
      · exact hplaced write hmem

end Listing

section Placing

variable {write write' : Write} {disk : Disk} {addr : Int}

/-- A byte belongs to one object. -/
theorem Placed.owner (h : Placed write) (h' : Placed write') {szIo : ℕ}
    (hblks : blksSz szIo = 1024) (howns : write.object.Owns szIo addr)
    (howns' : write'.object.Owns szIo addr) : write.object = write'.object := by
  simp only [Object.Owns, Object.size, hblks] at howns howns'
  cases h <;> cases h' <;>
    simp only [Object.start, superOfs, mapInodeOfs, mapDataOfs, inoOfs, daOfs, inodeOfs, inodeSize,
      dataOfs, dataPerFile, dataSize, sizeofSuperD, mapInodeBlocks, mapDataBlocks,
      Object.slot.injEq,
      Object.data.injEq] at howns howns' ⊢ <;>
    omega

/-- What a placed write replaces belongs to its object. -/
theorem Placed.owns (h : Placed write) {szIo : ℕ} (hblks : blksSz szIo = 1024)
    (hcovers : write.Covers addr) : write.object.Owns szIo addr := by
  simp only [Write.Covers] at hcovers
  simp only [Object.Owns, Object.size, hblks]
  cases h with
  | super content => exact hcovers
  | mapInode content => exact hcovers
  | mapData content => exact hcovers
  | slot hlt content => exact hcovers
  | entry hlt hfits content =>
      have hregion := hfits.region
      simp only [Object.start, sizeofDentryD, dataPerFile] at hcovers ⊢
      omega
  | data hlt hfits content =>
      have hregion := hfits.region
      simp only [Object.start, dataPerFile] at hcovers ⊢
      omega

/-- The blocks around a range of the device lie on the device. -/
theorem Geometry.touches (hdisk : Geometry disk) {offset size : Int} (hoffset : 0 ≤ offset)
    (hsize : 0 ≤ size) (hend : offset + size ≤ 4194304)
    (hlo : roundDown offset (blksSz disk.szIo) ≤ addr)
    (hhi : addr < alignedEnd disk.szIo offset size) : 0 ≤ addr ∧ addr < disk.size := by
  have hle := hdisk.alignedEnd_le hoffset hsize hend
  rw [hdisk.blks] at hlo
  have hdown := (roundDown_spec hoffset (show (0 : Int) < 1024 by decide)).2.1
  omega

/-- A placed write touches the device only. -/
theorem Placed.touches (h : Placed write) (hdisk : Geometry disk)
    (htouches : write.Touches disk.szIo addr) : 0 ≤ addr ∧ addr < disk.size := by
  obtain ⟨hlo, hhi⟩ := htouches
  cases h with
  | super content =>
      exact hdisk.touches (show 0 ≤ superOfs by decide) (show 0 ≤ sizeofSuperD by decide)
        (show superOfs + sizeofSuperD ≤ 4194304 by decide) hlo hhi
  | mapInode content =>
      exact hdisk.touches (show 0 ≤ mapInodeOfs by decide) (show (0 : Int) ≤ 1024 by decide)
        (show mapInodeOfs + 1024 ≤ 4194304 by decide) hlo hhi
  | mapData content =>
      exact hdisk.touches (show 0 ≤ mapDataOfs by decide) (show (0 : Int) ≤ 1024 by decide)
        (show mapDataOfs + 1024 ≤ 4194304 by decide) hlo hhi
  | slot hlt content =>
      refine hdisk.touches ?_ (show 0 ≤ sizeofInodeD by decide) ?_ hlo hhi
      all_goals
        simp only [inoOfs, inodeOfs, inodeSize, sizeofInodeD]
        omega
  | entry hlt hfits content =>
      have hdevice := hfits.device (by omega)
      refine hdisk.touches ?_ (show 0 ≤ sizeofDentryD by decide) ?_ hlo hhi
      all_goals
        simp only [daOfs, dataOfs, dataPerFile, dataSize, sizeofDentryD]
        omega
  | @data ino size hlt hfits content =>
      have hnonneg := hfits.nonneg
      by_cases hzero : size = 0
      · -- Nothing is written, and the address of the data is a block boundary.
        subst hzero
        have hdvd : (1024 : Int) ∣ daOfs ino := by
          simp only [daOfs, dataOfs, dataPerFile, dataSize]
          omega
        simp only [alignedEnd, hdisk.blks, roundDown_of_dvd hdvd, sub_self, add_zero,
          roundUp_of_dvd (dvd_zero (1024 : Int))] at hlo hhi
        omega
      · have hdevice := hfits.device hzero
        refine hdisk.touches ?_ hnonneg ?_ hlo hhi
        all_goals
          simp only [daOfs, dataOfs, dataPerFile, dataSize]
          omega

end Placing

section Runs

variable {old kinds : Kinds} {fs fs' : Fs}

theorem superWrites_placed (h : Mounted fs) (junk : Junk) :
    ∀ write ∈ superWrites fs.disk.szIo fs.super junk, Placed write := by
  intro write hwrite
  simp only [superWrites, Super.toDisk, h.mapInodeBlks, h.mapInodeOffset, h.mapDataBlks,
    h.mapDataOffset, h.geometry.blks, List.mem_cons, List.not_mem_nil, or_false] at hwrite
  rcases hwrite with rfl | rfl | rfl
  · exact .super _
  · exact .mapInode _
  · exact .mapData _

theorem Charted.separate (h : Charted old kinds fs) : Separate fs := by
  have hblks := h.mounted.geometry.blks
  constructor
  · intro junk
    obtain ⟨root, inode, hroot, -, hinode, -⟩ := h.mounted.root
    obtain ⟨writes, hwrites, hplaced⟩ := @inodeWrites_placed kinds fs.heap junk fs.disk.szIo
      h.heapTyped hblks h.entry_lt fs.heap.length 0 root hroot (by simp [hinode]) (by omega)
    have hlist : destroyWrites fs junk
        = some (writes ++ superWrites fs.disk.szIo fs.super junk) := by
      rw [destroyWrites, if_neg (by simp [h.mounted.isMounted]), h.mounted.rootDentry, hroot,
        Option.bind_eq_bind, Option.bind_some, hwrites]
      rfl
    have hall : ∀ write ∈ writes ++ superWrites fs.disk.szIo fs.super junk, Placed write := by
      intro write hwrite
      rcases List.mem_append.mp hwrite with hmem | hmem
      · exact hplaced write hmem
      · exact superWrites_placed h.mounted junk write hmem
    refine ⟨_, hlist, fun write hwrite addr => (hall write hwrite).touches h.mounted.geometry,
      fun write hwrite addr => (hall write hwrite).owns hblks, ?_⟩
    rintro write hwrite write' hwrite' hne addr ⟨hcovers, hcovers'⟩
    exact hne ((hall write hwrite).owner (hall write' hwrite') hblks
      ((hall write hwrite).owns hblks hcovers) ((hall write' hwrite').owns hblks hcovers'))
  · intro ptr dentry inode hptr hinode hfile
    obtain ⟨ino, -, hshape⟩ := h.shape ptr dentry inode hptr hinode
    obtain ⟨hsize, hfits, -⟩ := hshape.file hfile
    have hregion := hfits.region
    have hup := (roundUp_spec hsize (show (0 : Int) < 1024 by decide)).2.1
    rw [hblks, dataPerFile]
    omega

/-- The entry that a call makes where there is room for it. -/
theorem Charted.create_roomy (h : Charted old kinds fs) {maker : Maker} {path : List Byte}
    (hroom : RoomToMake fs maker path) {last : DentryPtr} {inode : Inode} {dentry : Dentry}
    (hmakes : Makes fs maker path last inode dentry) {junk : Junk}
    (hcreate : Newfs.create fs last dentry junk = some fs') :
    ∃ fname ftype c mapInode, newDentry fname ftype = some dentry ∧
      claimBit fs.super.mapInode 0 = some (c, mapInode) ∧ (c : Int) ≠ fs.super.maxIno ∧
      ∃ hc hplain, Charted old (kinds.add c ftype hc hplain) fs' := by
  obtain ⟨hregion, hdevice, c, mapInode, hclaim, hlt, hlimit⟩ := hroom last inode dentry hmakes
  obtain ⟨-, hopen, fname, ftype, hfname, hftype, hdentry⟩ := hmakes
  have hplain : ftype = .dir ∨ ftype = .file := by
    cases maker with
    | mkdir => exact Or.inl (Option.some.inj hftype).symm
    | mknod mode =>
        cases mode with
        | reg => exact Or.inr (Option.some.inj hftype).symm
        | dir => exact Or.inl (Option.some.inj hftype).symm
        | other => cases hftype
  rw [inodeNum] at hlt
  rw [h.mounted.geometry.blks, dataPerFile, sizeofDentryD] at hregion
  rw [h.mounted.geometry.size_eq] at hdevice
  refine ⟨fname, ftype, c, mapInode, hdentry, hclaim, hlimit, by omega, hplain,
    h.create hopen hdentry hplain hclaim (by omega) hlimit ?_ hcreate⟩
  intro ino hino
  rw [hino, daOfs, dataOfs, dataPerFile, dataSize, sizeofDentryD] at hdevice
  exact ⟨by omega, by push_cast; omega, fun _ => by push_cast at hdevice ⊢; omega⟩

/-- A creating call that leaves room. -/
theorem Charted.make (h : Charted old kinds fs) {maker : Maker} {path : List Byte} {junk : Junk}
    {ret : Int} (hroom : RoomToMake fs maker path)
    (hcall : maker.call fs path junk = some (fs', ret)) :
    ∃ kinds', Charted old kinds' fs' := by
  by_cases hret : ret = 0
  · subst hret
    obtain ⟨found, inode, fname, ftype, dentry, hlookup, hmiss, hopen, hfname, hftype, hdentry,
      hcreate⟩ := Maker.call_zero hcall
    obtain ⟨_, _, _, _, -, -, -, _, _, hcharted⟩ := h.create_roomy hroom
      ⟨⟨found, hlookup, hmiss, rfl⟩, hopen, fname, ftype, hfname, hftype, hdentry⟩ hcreate
    exact ⟨_, hcharted⟩
  · obtain ⟨found, hlookup, -⟩ := Maker.call_error hcall hret
    exact ⟨kinds, h.load (lookup_some hlookup).2.1⟩

/-- A write that leaves room. -/
theorem Charted.write (h : Charted old kinds fs) {path buf : List Byte} {offset ret : Int}
    (hroom : RoomToWrite fs path buf offset)
    (hwrite : Newfs.write fs path buf offset = some (fs', ret)) : Charted old kinds fs' := by
  obtain ⟨fs₁, found, hlookup, rfl | ⟨hfind, dentry, inode, hptr, hinode, hdir, hseek, hoffset,
    hlength, rfl⟩⟩ := write_some hwrite
  · exact h.load (lookup_some hlookup).2.1
  · have hloaded := h.load (lookup_some hlookup).2.1
    obtain ⟨ino, hkind, hshape⟩ := hloaded.shape _ dentry inode hptr hinode
    have hfile := (kinds.plain ino _ hkind).resolve_left hdir
    obtain ⟨hregion, hdevice⟩ := hroom fs₁ found dentry inode hlookup hfind hptr hinode hfile hseek
    rw [h.mounted.geometry.blks, dataPerFile] at hregion
    rw [h.mounted.geometry.blks, h.mounted.geometry.size_eq] at hdevice
    refine hloaded.overlay hptr hinode hdir hoffset hlength ?_
    intro ino' hino
    have hsize : 0 ≤ max inode.size (offset + buf.length) := by omega
    obtain ⟨⟨k, hk⟩, hlo, hhi⟩ := roundUp_spec hsize (show (0 : Int) < 1024 by decide)
    rw [overlay_size]
    refine ⟨by omega, by omega, ?_⟩
    intro hne
    rcases hdevice with hzero | hdevice
    · rw [hzero] at hne
      exact absurd (roundUp_of_dvd (dvd_zero (1024 : Int))) hne
    · rw [hino, daOfs, dataOfs, dataPerFile, dataSize] at hdevice
      omega

/-- A call that leaves room. -/
theorem Charted.step (h : Charted old kinds fs) (hstep : RoomyStep fs fs') :
    ∃ old' kinds', Charted old' kinds' fs' := by
  obtain ⟨op, hroom, hrun⟩ := hstep
  cases op, hrun using Op.run_cases with
  | mkdir path junk hrun ret hcall => exact ⟨old, h.make hroom hcall⟩
  | mknod path mode junk hrun ret hcall => exact ⟨old, h.make hroom hcall⟩
  | write path buf offset hrun ret hwrite => exact ⟨old, kinds, h.write hroom hwrite⟩
  | query op hrun path found hlookup => exact ⟨old, kinds, h.load (lookup_some hlookup).2.1⟩
  | remount junk junk' hrun => exact ⟨kinds, kinds, h.remount hrun⟩

/-- On a new device only the root has a number. -/
def rootKinds : Kinds where
  kind ino := if ino = 0 then some .dir else none
  lt := by
    intro ino ftype hkind
    split at hkind
    · omega
    · cases hkind
  plain := by
    intro ino ftype hkind
    split at hkind
    · exact Or.inl (Option.some.inj hkind).symm
    · cases hkind

theorem freshFs_charted {szIo : ℕ} (hszIo : szIo ∣ 1024) (junk : Junk) {mapInode : List Byte}
    (hclaimed : Claimed (slice (fun _ => (0 : Byte)) 1024 1024) 0 mapInode) :
    Charted rootKinds rootKinds (freshFs szIo junk mapInode) := by
  have hmounted := freshFs_mounted hszIo junk hclaimed
  have honly : ∀ ino t, rootKinds.kind ino = some t → ino = 0 ∧ t = .dir := by
    intro ino t hkind
    simp only [rootKinds] at hkind
    split at hkind
    · exact ⟨by assumption, (Option.some.inj hkind).symm⟩
    · cases hkind
  refine @charted_root rootKinds _ hmounted ?_ ?_ freshRoot ⟨0, 0, 0, [], []⟩ [] rfl rfl rfl rfl
    (shape_empty 0 .dir (by simp)) (by simp) ?_
  · intro ino t hkind
    rw [(honly ino t hkind).1]
    exact hmounted.rootBit
  · intro ino t hkind
    obtain ⟨rfl, rfl⟩ := honly ino t hkind
    have hrecord := diskInode_fresh (fun _ => 0) junk
    change Stored rootKinds (overwrite (fun _ => 0) 3072 (freshRecord junk)) 0 .dir _
    refine ⟨?_, fun _ => ?_, fun _ i hi => ?_, by simp⟩
    · rw [hrecord]
      rfl
    · rw [hrecord]
      exact fits_zero 0
    · rw [hrecord] at hi
      simp only at hi
      omega
  · intro sub
    simp only [List.not_mem_nil, List.length_nil, false_iff]
    omega

end Runs

/-- In every state of a run from a blank device in which every call leaves room, what
unmounting writes is on the device and separate. -/
theorem extents_separate {szIo : ℕ} (hszIo : szIo ∣ 1024) {junk : Junk} {fs₀ fs : Fs}
    (hinit : init (blankDisk szIo) junk = some fs₀) (hrun : Reachable RoomyStep fs₀ fs) :
    Separate fs := by
  obtain ⟨mapInode, hclaimed, hfresh⟩ := init_blank hszIo junk
  rw [hfresh] at hinit
  cases hinit
  obtain ⟨old, kinds, hcharted⟩ := reachable_invariant (fun fs => ∃ old kinds, Charted old kinds fs)
    ⟨_, _, freshFs_charted hszIo junk hclaimed⟩
    (fun _ _ ⟨_, _, hcharted⟩ hstep => hcharted.step hstep) hrun
  exact hcharted.separate

/-- `mkdir /a` on a blank device leaves room. -/
theorem blankDir_roomy {fs₀ fs₁ : Fs} {ret : Int} (h : blankDir = some (fs₀, fs₁, ret)) :
    init (blankDisk 512) (fun _ => 0) = some fs₀ ∧
      (Op.mkdir (pathOf [[97]]) fun _ => 0).run fs₀ = some fs₁ ∧
      RoomToMake fs₀ .mkdir (pathOf [[97]]) := by
  have hcounts := blankDir_counts
  rw [h, Option.map_some, Option.some.injEq] at hcounts
  simp only [Prod.mk.injEq] at hcounts
  obtain ⟨hino, -, hmaxIno, -⟩ := hcounts
  obtain ⟨fs, hinit, hcall⟩ := Option.bind_eq_some_iff.mp h
  obtain ⟨call, hmkdir, heq⟩ := Option.map_eq_some_iff.mp hcall
  cases heq
  refine ⟨hinit, by rw [Op.run, hmkdir]; rfl, ?_⟩
  obtain ⟨mapInode, -, hfresh⟩ := init_blank (show 512 ∣ 1024 by decide) fun _ => 0
  rw [hfresh] at hinit
  cases hinit
  rintro last inode dentry ⟨-, ⟨d, hd, -, hinode⟩, -⟩
  rw [List.mem_singleton.mp (List.mem_of_getElem? hd)] at hinode
  cases hinode
  obtain ⟨⟨c, mapInode'⟩, hclaim, rfl⟩ := Option.map_eq_some_iff.mp hino
  have hblks := (geometry_freshFs (show 512 ∣ 1024 by decide) (fun _ => 0) mapInode).blks
  refine ⟨?_, (show daOfs 0 + (0 + 1) * sizeofDentryD ≤ 4194304 by decide), 1, mapInode', hclaim,
    by decide, ?_⟩
  · rw [hblks]
    decide
  · rw [hmaxIno]
    decide

/-- After `mkdir /a` on a blank device. -/
theorem extents_separate_first :
    ∃ fs₀ fs₁ ret, blankDir = some (fs₀, fs₁, ret) ∧ Separate fs₁ := by
  obtain ⟨⟨fs₀, fs₁, ret⟩, hfirst, -⟩ := Option.map_eq_some_iff.mp blankDir_counts
  obtain ⟨hinit, hrun, hroom⟩ := blankDir_roomy hfirst
  exact ⟨fs₀, fs₁, ret, hfirst, extents_separate (show 512 ∣ 1024 by decide) hinit
    (.tail .refl ⟨.mkdir (pathOf [[97]]) fun _ => 0, hroom, hrun⟩)⟩

/-- The root with `n` directories whose names are single characters. -/
def rootDirs : ℕ → Option Fs
  | 0 => init (blankDisk 512) fun _ => 0
  | n + 1 => (rootDirs n).bind fun fs =>
      (Op.mkdir (pathOf [[BitVec.ofNat 8 (48 + n)]]) fun _ => 0).run fs

theorem rootDirs_reachable {n : ℕ} {fs : Fs} (h : rootDirs n = some fs) :
    ∃ fs₀, init (blankDisk 512) (fun _ => 0) = some fs₀ ∧ Reachable Step fs₀ fs := by
  induction n generalizing fs with
  | zero => exact ⟨fs, h, .refl⟩
  | succ n ih =>
      obtain ⟨before, hbefore, hrun⟩ := Option.bind_eq_some_iff.mp h
      obtain ⟨fs₀, hinit, hreach⟩ := ih hbefore
      exact ⟨fs₀, hinit, hreach.tail ⟨_, hrun⟩⟩

theorem rootDirs_overflow :
    ((rootDirs 59).bind fun fs => (destroyWrites fs fun _ => 0).map fun writes =>
      (fs.disk.szIo, writes.any fun write => decide (write.object = .data 0 ∧
        write.offset ≤ 138240 ∧ 138240 < write.offset + write.size))) = some (512, true) := by
  decide +kernel

/-- The 59th entry of the root reaches into the data region of inode 1. -/
theorem extents_not_separate :
    ∃ fs₀ fs, init (blankDisk 512) (fun _ => 0) = some fs₀ ∧ Reachable Step fs₀ fs ∧
      rootDirs 59 = some fs ∧ ¬ Separate fs := by
  obtain ⟨fs, hdirs, hmap⟩ := Option.bind_eq_some_iff.mp rootDirs_overflow
  obtain ⟨writes, hwrites, hover⟩ := Option.map_eq_some_iff.mp hmap
  simp only [Prod.mk.injEq] at hover
  obtain ⟨fs₀, hinit, hreach⟩ := rootDirs_reachable hdirs
  refine ⟨fs₀, fs, hinit, hreach, hdirs, ?_⟩
  intro hseparate
  obtain ⟨writes', hwrites', -, howns, -⟩ := hseparate.writes fun _ => 0
  rw [hwrites] at hwrites'
  cases hwrites'
  obtain ⟨write, hmem, hwrite⟩ := List.any_eq_true.mp hover.2
  obtain ⟨hobject, hlo, hhi⟩ := of_decide_eq_true hwrite
  have hown := (howns write hmem 138240 ⟨hlo, hhi⟩).2
  rw [hobject, hover.1] at hown
  exact absurd hown (by decide)

end OperateSystem.Newfs

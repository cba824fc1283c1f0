import OperateSystem.Newfs.Accounting
import OperateSystem.Newfs.Limits

/-!
# The counters of a directory

An entry that is linked is counted only when a data bit is claimed for it, and loading a
directory adds its entries to a size that has them already.  The counters describe the
directories as long as every new entry gets its bit and only a root without entries is
mounted again.
-/

namespace OperateSystem.Newfs

open OperateSystem.Bitmap
open OperateSystem.ByteStore
open OperateSystem.Traces

/-- The count of every directory in memory is the length of its list, and its size is that
of so many dentries. -/
def Counted (fs : Fs) : Prop :=
  Each (fun ftype inode => ftype = .dir →
    inode.dirCnt = inode.dentrys.length ∧ inode.size = inode.dirCnt * sizeofDentry) fs

/-- The entry that the call comes to create, if any, gets a data bit, and not the one that
the limit excludes. -/
def GetsBit (fs : Fs) (maker : Maker) (path : List Byte) : Prop :=
  ∀ last inode dentry, Makes fs maker path last inode dentry →
    ∃ c mapData, claimBit fs.super.mapData 0 = some (c, mapData) ∧ (c : Int) ≠ fs.super.maxData

/-- A created entry gets a data bit; a file system that is mounted again has no entries. -/
def Countable (fs : Fs) : Op → Prop
  | .mkdir path _ => GetsBit fs .mkdir path
  | .mknod path mode _ => GetsBit fs (.mknod mode) path
  | .remount _ _ => ∀ sub, ¬ Entry fs.heap 0 sub
  | _ => True

/-- What holds as long as every call was countable. -/
structure Tallied (fs : Fs) : Prop where
  shaped : Shaped fs
  mounted : Mounted fs
  counted : Counted fs
  claimed : Each (fun ftype inode => ftype = .dir →
    inode.dirCnt ≤ (setBits fs.super.mapData).card) fs
  bare : (∀ sub, ¬ Entry fs.heap 0 sub) →
    fs.heap.length = 1 ∧ fs.super.mapData = List.replicate 1024 0

section Calls

variable {fs fs' : Fs} (h : Tallied fs)

include h

/-- There are far fewer data bits than an `int` can count. -/
theorem Tallied.dirCnt_le {ptr : DentryPtr} {inode : Inode} (hopen : Open fs.heap ptr inode) :
    inode.dirCnt ≤ 8192 := by
  obtain ⟨dentry, hptr, hdir, hinode⟩ := hopen
  have hle := h.claimed ptr dentry inode hptr hinode hdir
  have hbits := card_setBits_le fs.super.mapData
  rw [h.mounted.mapDataLength] at hbits
  omega

/-- The size of a directory is far from the end of its type. -/
theorem Tallied.size_range {ptr : DentryPtr} {inode : Inode} (hopen : Open fs.heap ptr inode) :
    0 ≤ inode.size ∧ inode.size ≤ 1441792 := by
  have hle := h.dirCnt_le hopen
  obtain ⟨dentry, hptr, hdir, hinode⟩ := hopen
  obtain ⟨hcount, hsize⟩ := h.counted ptr dentry inode hptr hinode hdir
  rw [hsize, sizeofDentry]
  omega

/-- The end of a lookup. -/
theorem Tallied.load {ptr : DentryPtr} (hload : loadInode fs ptr = some fs') : Tallied fs' := by
  have hshaped := (h.shaped.loadInode_unchanged hload).1
  have hmounted := h.mounted.grows (loadInode_grows hload)
  rcases h.shaped.load hload with rfl | ⟨dentry, data, hptr, hnull, rfl⟩
  · exact h
  · have hentry := @entry_setInode_same fs ptr dentry ⟨0, 0, 0, [], data⟩ hptr fun sub =>
      iff_of_false (not_entry_of_null hptr hnull sub) (by simp)
    refine ⟨hshaped, hmounted, h.counted.setInode hptr ?_, h.claimed.setInode hptr ?_, ?_⟩
    · exact fun _ => ⟨rfl, rfl⟩
    · exact fun _ => Int.natCast_nonneg _
    · intro hnone
      obtain ⟨hlength, hmap⟩ := h.bare fun sub hsub => hnone sub ((hentry 0 sub).mpr hsub)
      exact ⟨by rw [Fs.setInode, List.length_set, hlength], hmap⟩

/-- A write to a file touches no directory. -/
theorem Tallied.overlay {ptr : DentryPtr} {dentry : Dentry} {inode : Inode}
    (hptr : fs.heap[ptr]? = some dentry) (hinode : dentry.inode = some inode)
    (hfile : dentry.ftype ≠ .dir) (buf : List Byte) (offset : Int) :
    Tallied (fs.setInode ptr dentry (inode.overlay buf offset)) := by
  have hentry := @entry_setInode_same fs ptr dentry (inode.overlay buf offset) hptr
    fun sub => (entry_iff_of_inode hptr hinode sub).trans Iff.rfl
  have hgrows : fs.Grows (fs.setInode ptr dentry (inode.overlay buf offset)) :=
    ⟨rfl, Super.Grows.refl _, heapGrows_setInode hptr hinode rfl⟩
  refine ⟨h.shaped.overlay hptr hinode buf offset, h.mounted.grows hgrows,
    h.counted.setInode hptr ?_, h.claimed.setInode hptr ?_, ?_⟩
  · exact fun hdir => absurd hdir hfile
  · exact fun hdir => absurd hdir hfile
  · intro hnone
    obtain ⟨hlength, hmap⟩ := h.bare fun sub hsub => hnone sub ((hentry 0 sub).mpr hsub)
    exact ⟨by rw [Fs.setInode, List.length_set, hlength], hmap⟩

/-- A creation whose entry gets a bit counts the entry. -/
theorem Tallied.create {ptr : DentryPtr} {inode : Inode} {name : List Byte} {ftype : FileType}
    {dentry : Dentry} {junk : Junk} {c : ℕ} {mapData : List Byte}
    (hclaim : claimBit fs.super.mapData 0 = some (c, mapData))
    (hlimit : (c : Int) ≠ fs.super.maxData) (hopen : Open fs.heap ptr inode)
    (hdentry : newDentry name ftype = some dentry)
    (hcreate : Newfs.create fs ptr dentry junk = some fs') : Tallied fs' := by
  have hblks := h.shaped.geometry.blks
  obtain ⟨hsize, hsize'⟩ := h.size_range hopen
  have hlink : ∀ super : Super, super.mapData = fs.super.mapData →
      super.maxData = fs.super.maxData →
      allocDentry (blksSz fs.disk.szIo) super inode fs.heap.length
        = ({ super with mapData := mapData },
          { inode with
            dentrys := fs.heap.length :: inode.dentrys
            dirCnt := inode.dirCnt + 1
            size := inode.size + sizeofDentry }, inode.dirCnt + 1) := by
    intro super hmap hmax
    have hgrown : toInt32 (inode.size + sizeofDentry) = inode.size + sizeofDentry := by
      apply toInt32_of_range <;> rw [sizeofDentry] <;> omega
    rw [hblks, allocDentry_claim _ (by omega) (by omega) (hmap ▸ hclaim), hmax, if_neg hlimit,
      hgrown]
  have hmap' : fs'.super.mapData = mapData := by
    obtain ⟨super, hmap, hmax, hsuper, -⟩ := usedBlocks_create hblks hdentry hopen hcreate
    have hlinked := hlink super hmap hmax
    rw [hblks] at hlinked
    rw [hsuper, hlinked]
  have hcard := (claimBit_some (by decide) hclaim).card_setBits
  obtain ⟨-, hentry⟩ := create_entry hdentry hcreate
  have hnull : dentry.inode = none := (newDentry_some hdentry).2 ▸ rfl
  refine ⟨h.shaped.create hopen hdentry hcreate, h.mounted.grows (create_grows hcreate),
    h.counted.create hnull (fun _ _ _ => ⟨rfl, rfl⟩) ?_ hcreate, ?_, ?_⟩
  · intro last inode' super hlast hinode hmap hmax hcounted hdir
    obtain ⟨-, hsame⟩ := hopen.of_dentry hlast
    rw [hinode] at hsame
    cases hsame
    obtain ⟨hcount, hsize⟩ := hcounted hdir
    rw [hlink super hmap hmax]
    simp only [List.length_cons, Nat.cast_succ]
    refine ⟨by omega, ?_⟩
    rw [hsize, add_mul, one_mul]
  · rw [hmap', hcard]
    have hmore : Each (fun ftype inode => ftype = .dir →
        inode.dirCnt ≤ (((setBits fs.super.mapData).card + 1 : ℕ) : Int)) fs := by
      intro other d i hother hi hdir
      have hle := h.claimed other d i hother hi hdir
      omega
    refine hmore.create hnull (fun _ _ _ => Int.natCast_nonneg _) ?_ hcreate
    intro last inode' super hlast hinode hmap hmax _ hdir
    obtain ⟨-, hsame⟩ := hopen.of_dentry hlast
    rw [hinode] at hsame
    cases hsame
    have hle : inode.dirCnt ≤ (setBits fs.super.mapData).card :=
      h.claimed ptr last inode hlast hinode hdir
    rw [hlink super hmap hmax]
    simp only
    omega
  · -- The root has an entry: it had one, or it is the only directory there is.
    intro hnone
    exfalso
    obtain ⟨hlength, -⟩ := h.bare fun sub hsub => hnone sub ((hentry 0 sub).mpr (Or.inl hsub))
    obtain ⟨last, hlast, -⟩ := hopen
    have hlt := (List.getElem?_eq_some_iff.mp hlast).1
    rw [hlength] at hlt
    have hptr : ptr = 0 := Nat.lt_one_iff.mp hlt
    exact hnone fs.heap.length ((hentry 0 _).mpr (Or.inr ⟨hptr.symm, rfl⟩))

/-- A creating call. -/
theorem Tallied.call {maker : Maker} {path : List Byte} {junk : Junk} {ret : Int}
    (hgets : GetsBit fs maker path) (hcall : maker.call fs path junk = some (fs', ret)) :
    Tallied fs' := by
  by_cases hret : ret = 0
  · subst hret
    obtain ⟨found, inode, fname, ftype, dentry, hlookup, hmiss, hopen, hfname, hftype, hdentry,
      hcreate⟩ := Maker.call_zero hcall
    obtain ⟨c, mapData, hclaim, hlimit⟩ := hgets found.dentry inode dentry
      ⟨⟨found, hlookup, hmiss, rfl⟩, hopen, fname, ftype, hfname, hftype, hdentry⟩
    exact h.create hclaim hlimit hopen hdentry hcreate
  · obtain ⟨found, hlookup, -⟩ := Maker.call_error hcall hret
    exact h.load (lookup_some hlookup).2.1

/-- A root without entries is mounted again as it was. -/
theorem Tallied.remount {junk junk' : Junk} (hnone : ∀ sub, ¬ Entry fs.heap 0 sub)
    (hrun : (Op.remount junk junk').run fs = some fs') : Tallied fs' := by
  obtain ⟨disk, hdestroy, hinit⟩ := remount_some hrun
  obtain ⟨hlength, hmap⟩ := h.bare hnone
  obtain ⟨root, inode, hroot, hdir, hinode, hino⟩ := h.mounted.root
  obtain ⟨hcount, hsize⟩ := h.counted 0 root inode hroot hinode hdir
  have hempty : inode.dentrys = [] := by
    apply List.eq_nil_iff_forall_not_mem.mpr
    intro sub hsub
    exact hnone sub ((entry_iff_of_inode hroot hinode sub).mpr hsub)
  rw [hempty] at hcount
  rw [hcount] at hsize
  have hheap : fs.heap = [root] := by
    obtain ⟨only, honly⟩ := List.length_eq_one_iff.mp hlength
    rw [honly] at hroot ⊢
    cases hroot
    rfl
  obtain ⟨hbare, hmap', hheap'⟩ := remount_bare h.mounted hheap hdir hinode hino hcount hmap
    hdestroy hinit
  have honly : ∀ P : FileType → Inode → Prop, P .dir ⟨0, 0, 0, [], []⟩ → Each P fs' := by
    intro P hholds ptr dentry i hptr hi
    rw [hheap', hsize] at hptr
    have hsame := List.mem_singleton.mp (List.mem_of_getElem? hptr)
    subst hsame
    cases hi
    exact hholds
  refine ⟨hbare.shaped, (init_image_mounted (destroy_image h.mounted hdestroy).1 hinit).1,
    honly _ fun _ => ⟨rfl, rfl⟩, honly _ fun _ => Int.natCast_nonneg _, fun _ => ⟨?_, hmap'⟩⟩
  rw [hheap']
  rfl

theorem Tallied.step {op : Op} (hcountable : Countable fs op) (hrun : op.run fs = some fs') :
    Tallied fs' := by
  cases op, hrun using Op.run_cases with
  | mkdir path junk hrun ret hcall => exact h.call hcountable hcall
  | mknod path mode junk hrun ret hcall => exact h.call hcountable hcall
  | write path buf offset hrun ret hwrite =>
      obtain ⟨fs₁, found, hlookup, rfl | ⟨-, dentry, inode, hptr, hinode, hfile, -, -, -, rfl⟩⟩ :=
        write_some hwrite
      · exact h.load (lookup_some hlookup).2.1
      · exact (h.load (lookup_some hlookup).2.1).overlay hptr hinode hfile buf offset
  | query op hrun path found hlookup => exact h.load (lookup_some hlookup).2.1
  | remount junk junk' hrun => exact h.remount hcountable hrun

end Calls

theorem freshFs_tallied {szIo : ℕ} (hszIo : szIo ∣ 1024) (junk : Junk) {mapInode : List Byte}
    (hclaimed : Claimed (slice (fun _ => (0 : Byte)) 1024 1024) 0 mapInode) :
    Tallied (freshFs szIo junk mapInode) := by
  have honly : ∀ P : FileType → Inode → Prop, P .dir ⟨0, 0, 0, [], []⟩ →
      Each P (freshFs szIo junk mapInode) := by
    intro P hholds ptr dentry inode hptr hinode
    have hsame : dentry = freshRoot := List.mem_singleton.mp (List.mem_of_getElem? hptr)
    subst hsame
    cases hinode
    exact hholds
  exact ⟨(freshFs_empty hszIo junk mapInode).shaped, freshFs_mounted hszIo junk hclaimed,
    honly _ fun _ => ⟨rfl, rfl⟩, honly _ fun _ => Int.natCast_nonneg _,
    fun _ => ⟨rfl, slice_zeros 2048 1024⟩⟩

/-- In a run from a blank device all of whose calls are countable, the counters describe
every directory in memory at the start and after every call. -/
theorem counters_of_countable {szIo : ℕ} (hszIo : szIo ∣ 1024) {junk : Junk} {fs₀ fs : Fs}
    (hinit : init (blankDisk szIo) junk = some fs₀) {calls : List (Fs × Op × Fs)}
    (hrun : Trace (fun before op after => Op.run before op = some after) fs₀ calls fs)
    (hcountable : ∀ e ∈ calls, Countable e.1 e.2.1) :
    Counted fs₀ ∧ ∀ e ∈ calls, Counted e.2.2 := by
  obtain ⟨mapInode, hclaimed, hfresh⟩ := init_blank hszIo junk
  rw [hfresh] at hinit
  cases hinit
  have hstart := freshFs_tallied hszIo junk hclaimed
  refine ⟨hstart.counted, ?_⟩
  refine (hrun.forall_of Tallied (P := fun before op _ => Countable before op)
    (Q := fun _ _ after => Counted after) hstart hcountable ?_).1
  intro before op after h hgood hstep
  have hafter := h.step hgood hstep
  exact ⟨hafter.counted, hafter⟩

/-- `mkdir /a` on a blank device and a remount. -/
def dirRemount : Option (Fs × Fs × Fs) :=
  (init (blankDisk 512) fun _ => 0).bind fun fs₀ =>
    ((Op.mkdir (pathOf [[97]]) fun _ => 0).run fs₀).bind fun fs₁ =>
      ((Op.remount (fun _ => 0) fun _ => 0).run fs₁).map fun fs₂ => (fs₀, fs₁, fs₂)

/-- The root has one entry, and a size of two dentries. -/
theorem dirRemount_counts :
    (dirRemount.bind fun run => run.2.2.heap[0]?.bind fun root => root.inode.map fun inode =>
      (root.ftype, inode.dirCnt, inode.size)) = some (FileType.dir, 1, 352) := by
  decide +kernel

/-- After `mkdir /a`. -/
theorem counters_of_countable_first :
    ∃ fs₀ fs₁ ret, blankDir = some (fs₀, fs₁, ret) ∧ Counted fs₁ := by
  obtain ⟨⟨fs₀, fs₁, ret⟩, hfirst, hcounts⟩ := Option.map_eq_some_iff.mp blankDir_counts
  simp only [Prod.mk.injEq] at hcounts
  obtain ⟨-, hdata, -, hmaxData⟩ := hcounts
  obtain ⟨fs, hinit, hcall⟩ := Option.bind_eq_some_iff.mp hfirst
  obtain ⟨call, hmkdir, heq⟩ := Option.map_eq_some_iff.mp hcall
  cases heq
  refine ⟨fs₀, fs₁, ret, hfirst, ?_⟩
  have hstep : (Op.mkdir (pathOf [[97]]) fun _ => 0).run fs₀ = some fs₁ := by
    rw [Op.run, hmkdir]
    rfl
  refine (counters_of_countable (show 512 ∣ 1024 by decide) hinit (.snoc .nil hstep) ?_).2
    (fs₀, _, fs₁) (List.mem_singleton.mpr rfl)
  intro e he
  rw [List.mem_singleton.mp he]
  intro last inode dentry _
  obtain ⟨⟨c, mapData⟩, hclaim, rfl⟩ := Option.map_eq_some_iff.mp hdata
  refine ⟨0, mapData, hclaim, ?_⟩
  rw [hmaxData]
  decide

/-- A remount counts the size of the root's entry twice. -/
theorem counters_not_described :
    ∃ fs₀ fs₁ fs₂, dirRemount = some (fs₀, fs₁, fs₂) ∧
      init (blankDisk 512) (fun _ => 0) = some fs₀ ∧
      Trace (fun before op after => Op.run before op = some after) fs₀
        [(fs₁, .remount (fun _ => 0) fun _ => 0, fs₂),
          (fs₀, .mkdir (pathOf [[97]]) fun _ => 0, fs₁)] fs₂ ∧ ¬ Counted fs₂ := by
  obtain ⟨⟨fs₀, fs₁, fs₂⟩, hrun, hcounts⟩ := Option.bind_eq_some_iff.mp dirRemount_counts
  obtain ⟨fs, hinit, hrest⟩ := Option.bind_eq_some_iff.mp hrun
  obtain ⟨fs', hmkdir, hrest⟩ := Option.bind_eq_some_iff.mp hrest
  obtain ⟨fs'', hremount, heq⟩ := Option.map_eq_some_iff.mp hrest
  cases heq
  refine ⟨fs₀, fs₁, fs₂, hrun, hinit, .snoc (.snoc .nil hmkdir) hremount, ?_⟩
  intro hcounted
  obtain ⟨root, hroot, hcounts⟩ := Option.bind_eq_some_iff.mp hcounts
  obtain ⟨inode, hinode, hcounts⟩ := Option.map_eq_some_iff.mp hcounts
  simp only [Prod.mk.injEq] at hcounts
  obtain ⟨hdir, hcount, hsize⟩ := hcounts
  have hdescribed := (hcounted 0 root inode hroot hinode hdir).2
  rw [hcount, hsize] at hdescribed
  exact absurd hdescribed (by decide)

end OperateSystem.Newfs

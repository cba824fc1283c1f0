import Mathlib.Algebra.BigOperators.Group.List.Basic
import Mathlib.Algebra.Order.BigOperators.Group.List
import OperateSystem.Core.Trace
import OperateSystem.Newfs.Tree

/-!
# The data bitmap and the sizes of the inodes

Every entry that is linked claims a bit of the data bitmap, whether or not its
directory has room for it, and no write ever claims one.  The set bits therefore
count the blocks that the inodes need just as long as every entry opens a new block
and no file grows into one.
-/

namespace OperateSystem.Newfs

open OperateSystem.Bitmap
open OperateSystem.Traces

/-- The number of blocks of `blks` bytes that hold `size` bytes. -/
def blocksFor (blks size : Int) : Int := (size + blks - 1) / blks

/-- The blocks that the inode of a dentry needs. -/
def Dentry.blocks (blks : Int) (dentry : Dentry) : Int :=
  match dentry.inode with
  | some inode => blocksFor blks inode.size
  | none => 0

/-- The blocks that all inodes in memory need. -/
def usedBlocks (fs : Fs) : Int :=
  (fs.heap.map (Dentry.blocks (blksSz fs.disk.szIo))).sum

/-- The data bitmap has as many bits set as the inodes need blocks. -/
def Accounted (fs : Fs) : Prop :=
  ((setBits fs.super.mapData).card : Int) = usedBlocks fs

/-- The bit that a new entry of the directory claims, if any, is counted, and the entry
does not fit in the blocks that the directory has. -/
def OpensBlock (fs : Fs) (inode : Inode) : Prop :=
  ∀ c mapData, claimBit fs.super.mapData 0 = some (c, mapData) →
    (c : Int) ≠ fs.super.maxData ∧
      blocksFor (blksSz fs.disk.szIo) (inode.size + sizeofDentry)
        = blocksFor (blksSz fs.disk.szIo) inode.size + 1

/-- A created entry opens a new block of its directory; a write stays within the blocks
that its file has. -/
def Balanced (fs : Fs) : Op → Prop
  | .mkdir path _ | .mknod path _ _ =>
      ∀ found inode, lookup fs path = some (fs, found) → found.isFind = some false →
        Open fs.heap found.dentry inode → OpensBlock fs inode
  | .write path buf offset =>
      ∀ fs₁ found dentry inode, lookup fs path = some (fs₁, found) →
        found.isFind = some true → fs₁.heap[found.dentry]? = some dentry →
        dentry.inode = some inode → dentry.ftype ≠ .dir → offset ≤ inode.size →
        blocksFor (blksSz fs.disk.szIo) (max inode.size (offset + buf.length))
          = blocksFor (blksSz fs.disk.szIo) inode.size
  | _ => True

section Sums

variable {fs : Fs} {ptr : DentryPtr} {dentry : Dentry}

theorem usedBlocks_setInode (hptr : fs.heap[ptr]? = some dentry) (inode : Inode) :
    usedBlocks (fs.setInode ptr dentry inode)
      = usedBlocks fs - dentry.blocks (blksSz fs.disk.szIo)
        + blocksFor (blksSz fs.disk.szIo) inode.size := by
  obtain ⟨hlt, hget⟩ := List.getElem?_eq_some_iff.mp hptr
  rw [usedBlocks, Fs.setInode, List.map_set, List.sum_set', dif_pos (by simpa using hlt),
    List.getElem_map, hget, usedBlocks]
  simp only [Dentry.blocks]
  omega

/-- A number of blocks below which no size is negative. -/
theorem blocksFor_nonneg {size : Int} (hsize : 0 ≤ size) : 0 ≤ blocksFor 1024 size := by
  rw [blocksFor]
  omega

end Sums

/-- What holds in a mount as long as the bitmap is in balance. -/
structure Booked (fs : Fs) : Prop where
  shaped : Shaped fs
  mapData : fs.super.mapData.length = 1024
  accounted : Accounted fs
  sizes : Each (fun _ inode => 0 ≤ inode.size) fs

section Steps

variable {fs fs' : Fs} (h : Booked fs)

include h

/-- With the bitmap in balance no size is anywhere near the end of its type. -/
theorem Booked.size_le {ptr : DentryPtr} {dentry : Dentry} {inode : Inode}
    (hptr : fs.heap[ptr]? = some dentry) (hinode : dentry.inode = some inode) :
    inode.size ≤ 8388608 := by
  have hblks := h.shaped.geometry.blks
  have hnonneg : ∀ n ∈ fs.heap.map (Dentry.blocks (blksSz fs.disk.szIo)), 0 ≤ n := by
    intro n hn
    obtain ⟨d, hd, rfl⟩ := List.mem_map.mp hn
    obtain ⟨other, hother⟩ := List.getElem?_of_mem hd
    rw [Dentry.blocks, hblks]
    split
    · rename_i i hi
      exact blocksFor_nonneg (h.sizes other d i hother hi)
    · exact le_refl _
  have hle := List.single_le_sum hnonneg (dentry.blocks (blksSz fs.disk.szIo))
    (List.mem_map_of_mem (List.mem_of_getElem? hptr))
  have hbits := card_setBits_le fs.super.mapData
  have haccounted := h.accounted
  rw [Accounted, usedBlocks] at haccounted
  rw [← haccounted, Dentry.blocks, hinode] at hle
  simp only [hblks, blocksFor] at hle
  rw [h.mapData] at hbits
  omega

/-- Storing an inode that needs as many blocks keeps the balance. -/
theorem Booked.setInode {ptr : DentryPtr} {dentry : Dentry} {inode : Inode}
    (hptr : fs.heap[ptr]? = some dentry) (hsize : 0 ≤ inode.size)
    (hshaped : Shaped (fs.setInode ptr dentry inode)) :
    (Accounted (fs.setInode ptr dentry inode) ↔
        blocksFor (blksSz fs.disk.szIo) inode.size = dentry.blocks (blksSz fs.disk.szIo)) ∧
      (Accounted (fs.setInode ptr dentry inode) → Booked (fs.setInode ptr dentry inode)) := by
  have haccounted := h.accounted
  constructor
  · rw [Accounted] at haccounted ⊢
    rw [usedBlocks_setInode hptr]
    change ((setBits fs.super.mapData).card : Int) = _ ↔ _
    omega
  · exact fun hafter => ⟨hshaped, h.mapData, hafter, h.sizes.setInode hptr hsize⟩

/-- The end of a lookup keeps the balance. -/
theorem Booked.load {ptr : DentryPtr} (hload : loadInode fs ptr = some fs') : Booked fs' := by
  have hshaped := (h.shaped.loadInode_unchanged hload).1
  rcases h.shaped.load hload with rfl | ⟨dentry, data, hptr, hnull, rfl⟩
  · exact h
  · obtain ⟨hiff, hkeep⟩ := @Booked.setInode fs h ptr dentry ⟨0, 0, 0, [], data⟩ hptr
      (le_refl 0) hshaped
    apply hkeep
    rw [hiff, Dentry.blocks, hnull, h.shaped.geometry.blks]
    rfl

end Steps

section Create

variable {fs fs' : Fs} {ptr : DentryPtr} {dentry : Dentry} {junk : Junk}

/-- The blocks in use after a creation are those of the directory that got the entry and
the rest as before. -/
theorem usedBlocks_create (hblks : blksSz fs.disk.szIo = 1024) {name : List Byte}
    {ftype : FileType} (hdentry : newDentry name ftype = some dentry) {inode : Inode}
    (hopen : Open fs.heap ptr inode) (hcreate : create fs ptr dentry junk = some fs') :
    ∃ super, super.mapData = fs.super.mapData ∧ super.maxData = fs.super.maxData ∧
      fs'.super = (allocDentry 1024 super inode fs.heap.length).1 ∧
      usedBlocks fs' = usedBlocks fs - blocksFor 1024 inode.size
        + blocksFor 1024 (allocDentry 1024 super inode fs.heap.length).2.1.size := by
  obtain ⟨last, lastInode, hlast, hinode, super, added, super', linked, halloc,
    ⟨ret, hlink⟩, rfl⟩ :=
    create_some hcreate
  obtain ⟨-, hinode'⟩ := hopen.of_dentry hlast
  rw [hinode] at hinode'
  cases hinode'
  have hmap := allocInode_mapData (blksSz fs.disk.szIo) fs.super dentry junk
  have hadded := allocInode_dentry (blksSz fs.disk.szIo) fs.super dentry junk
  rw [halloc] at hmap hadded
  obtain ⟨-, rfl⟩ := newDentry_some hdentry
  rw [hblks] at hlink
  have haddedBlocks : added.blocks 1024 = 0 := by
    rcases hadded with rfl | ⟨ino, data, rfl⟩ <;> rfl
  have hlastBlocks : last.blocks 1024 = blocksFor 1024 inode.size := by
    rw [Dentry.blocks, hinode]
  have hset := usedBlocks_setInode hlast linked
  have hszIo : (fs.setInode ptr last linked).disk.szIo = fs.disk.szIo := rfl
  rw [usedBlocks, hszIo, hblks, hlastBlocks] at hset
  refine ⟨super, hmap.1, hmap.2, by rw [hlink], ?_⟩
  rw [hlink, ← hset, usedBlocks]
  simp only [hszIo, hblks, List.map_append, List.sum_append, List.map_singleton,
    List.sum_singleton, haddedBlocks, add_zero]

/-- A creation keeps the balance just when the entry opens a new block. -/
theorem Booked.create (h : Booked fs) {name : List Byte} {ftype : FileType}
    (hdentry : newDentry name ftype = some dentry) {inode : Inode}
    (hopen : Open fs.heap ptr inode) (hcreate : Newfs.create fs ptr dentry junk = some fs') :
    (Accounted fs' ↔ OpensBlock fs inode) ∧ (Accounted fs' → Booked fs') := by
  have hblks := h.shaped.geometry.blks
  obtain ⟨super, hmap, hmax, hsuper, hused⟩ := usedBlocks_create hblks hdentry hopen hcreate
  have hsize : 0 ≤ inode.size ∧ inode.size ≤ 8388608 := by
    obtain ⟨last, hlast, -, hinode⟩ := hopen
    exact ⟨h.sizes ptr last inode hlast hinode, h.size_le hlast hinode⟩
  have hgrown : toInt32 (inode.size + sizeofDentry) = inode.size + sizeofDentry := by
    apply toInt32_of_range <;> rw [sizeofDentry] <;> omega
  have haccounted := h.accounted
  constructor
  · rw [Accounted] at haccounted ⊢
    rw [hused, hsuper]
    cases hclaim : claimBit fs.super.mapData 0 with
    | none =>
        rw [← hmap] at hclaim
        rw [allocDentry_full _ (by omega) (by omega) hclaim]
        refine iff_of_true ?_ ?_
        · simp only [hmap]
          omega
        · intro c mapData hsome
          rw [← hmap, hclaim] at hsome
          cases hsome
    | some claim =>
        obtain ⟨c, mapData⟩ := claim
        have hcard := (claimBit_some (by decide) hclaim).card_setBits
        have hopens : OpensBlock fs inode ↔ (c : Int) ≠ fs.super.maxData ∧
            blocksFor 1024 (inode.size + sizeofDentry) = blocksFor 1024 inode.size + 1 := by
          rw [OpensBlock, hclaim, hblks]
          refine ⟨fun hall => hall c mapData rfl, ?_⟩
          rintro hone c' mapData' hsame
          cases hsame
          exact hone
        rw [← hmap] at hclaim
        rw [hopens, allocDentry_claim _ (by omega) (by omega) hclaim, hmax]
        by_cases hlimit : (c : Int) = fs.super.maxData
        · simp only [hlimit, if_true, ne_eq, not_true, false_and, iff_false]
          omega
        · simp only [hlimit, if_false, ne_eq, not_false_iff, true_and, hgrown]
          omega
  · intro hafter
    have hgrows := create_grows hcreate
    refine ⟨h.shaped.create hopen hdentry hcreate, ?_, hafter, ?_⟩
    · rw [hgrows.super.mapData.length_eq, h.mapData]
    · obtain ⟨-, rfl⟩ := newDentry_some hdentry
      refine h.sizes.create rfl (fun _ _ => le_refl 0) ?_ hcreate
      intro last inode' super' hlast hinode _ _ hnonneg
      obtain ⟨-, hsame⟩ := hopen.of_dentry hlast
      rw [hinode] at hsame
      cases hsame
      rw [hblks]
      cases hclaim : claimBit super'.mapData 0 with
      | none =>
          rw [allocDentry_full _ (by omega) (by omega) hclaim]
          exact hnonneg
      | some claim =>
          rw [allocDentry_claim _ (by omega) (by omega) hclaim, hgrown]
          split
          · exact hnonneg
          · simp only [sizeofDentry]
            omega

end Create

section Runs

variable {fs fs' : Fs}

/-- A creating call keeps the balance just when the entry it makes, if any, opens a new
block. -/
theorem Booked.call (h : Booked fs) {maker : Maker} {path : List Byte} {junk : Junk} {ret : Int}
    (hcall : maker.call fs path junk = some (fs', ret)) :
    (Accounted fs' ↔ ∀ found inode, lookup fs path = some (fs, found) →
        found.isFind = some false → Open fs.heap found.dentry inode → OpensBlock fs inode) ∧
      (Accounted fs' → Booked fs') := by
  by_cases hret : ret = 0
  · subst hret
    obtain ⟨found, inode, fname, ftype, dentry, hlookup, hmiss, hopen, -, -, hdentry, hcreate⟩ :=
      Maker.call_zero hcall
    obtain ⟨hiff, hbooked⟩ := h.create hdentry hopen hcreate
    refine ⟨hiff.trans ⟨?_, fun hall => hall found inode hlookup hmiss hopen⟩, hbooked⟩
    intro hopens found' inode' hlookup' _ hopen'
    rw [hlookup] at hlookup'
    cases hlookup'
    rw [hopen'.unique hopen]
    exact hopens
  · obtain ⟨found, hlookup, hfind⟩ := Maker.call_error hcall hret
    have hbooked := h.load (lookup_some hlookup).2.1
    refine ⟨iff_of_true hbooked.accounted ?_, fun _ => hbooked⟩
    intro found' inode hlookup' hmiss _
    rw [hlookup] at hlookup'
    cases hlookup'
    rw [hfind] at hmiss
    cases hmiss

/-- A write keeps the balance just when the file does not grow into a new block. -/
theorem Booked.write (h : Booked fs) {path buf : List Byte} {offset ret : Int}
    (hwrite : Newfs.write fs path buf offset = some (fs', ret)) :
    (Accounted fs' ↔ Balanced fs (.write path buf offset)) ∧ (Accounted fs' → Booked fs') := by
  obtain ⟨fs₁, found, hlookup, hresult⟩ := write_some hwrite
  have hload := (lookup_some hlookup).2.1
  have hbooked := h.load hload
  have hszIo : fs.disk.szIo = fs₁.disk.szIo := by rw [(loadInode_grows hload).disk]
  -- Whenever the data of a file is changed, the balance depends on its size alone.
  have hchange : ∀ dentry inode, found.isFind = some true →
      fs₁.heap[found.dentry]? = some dentry → dentry.inode = some inode →
      dentry.ftype ≠ .dir → offset ≤ inode.size →
      (Accounted fs' ↔
        blocksFor (blksSz fs.disk.szIo) (max inode.size (offset + buf.length))
          = blocksFor (blksSz fs.disk.szIo) inode.size) ∧ (Accounted fs' → Booked fs') := by
    intro dentry inode hfind hdentry hinode hfile hseek
    obtain ⟨-, rfl⟩ := write_overlays hlookup hfind hdentry hinode hfile hseek hwrite
    have hsize := hbooked.sizes _ dentry inode hdentry hinode
    have hset := @Booked.setInode fs₁ hbooked found.dentry dentry (inode.overlay buf offset)
      hdentry (by rw [overlay_size]; omega) (hbooked.shaped.overlay hdentry hinode buf offset)
    rwa [overlay_size, Dentry.blocks, hinode, ← hszIo] at hset
  rcases hresult with rfl | ⟨hfind, dentry, inode, hdentry, hinode, hfile, hseek, -⟩
  · refine ⟨iff_of_true hbooked.accounted ?_, fun _ => hbooked⟩
    intro fs₂ found' dentry inode hlookup' hfind hdentry hinode hfile hseek
    rw [hlookup] at hlookup'
    cases hlookup'
    exact (hchange dentry inode hfind hdentry hinode hfile hseek).1.mp hbooked.accounted
  · obtain ⟨hiff, hkeep⟩ := hchange dentry inode hfind hdentry hinode hfile hseek
    refine ⟨hiff.trans ⟨?_, ?_⟩, hkeep⟩
    · intro hsame fs₂ found' dentry' inode' hlookup' _ hdentry' hinode' _ _
      rw [hlookup] at hlookup'
      cases hlookup'
      rw [hdentry] at hdentry'
      cases hdentry'
      rw [hinode] at hinode'
      cases hinode'
      exact hsame
    · intro hbalanced
      exact hbalanced fs₁ found dentry inode hlookup hfind hdentry hinode hfile hseek

/-- A call of one mount. -/
def WorkStep (fs : Fs) (op : Op) (fs' : Fs) : Prop := op.works ∧ op.run fs = some fs'

/-- A call keeps the balance just when it is balanced. -/
theorem Booked.step (h : Booked fs) {op : Op} (hstep : WorkStep fs op fs') :
    (Accounted fs' ↔ Balanced fs op) ∧ (Balanced fs op → Booked fs') := by
  obtain ⟨hworks, hrun⟩ := hstep
  have hgoal : ∀ {P : Prop}, (Accounted fs' ↔ P) ∧ (Accounted fs' → Booked fs') →
      (Accounted fs' ↔ P) ∧ (P → Booked fs') :=
    fun hboth => ⟨hboth.1, fun hp => hboth.2 (hboth.1.mpr hp)⟩
  cases op with
  | mkdir path junk =>
      obtain ⟨⟨_, ret⟩, hcall, rfl⟩ := Option.map_eq_some_iff.mp hrun
      exact hgoal (h.call (show Maker.call .mkdir fs path junk = _ from hcall))
  | mknod path mode junk =>
      obtain ⟨⟨_, ret⟩, hcall, rfl⟩ := Option.map_eq_some_iff.mp hrun
      exact hgoal (h.call (show Maker.call (.mknod mode) fs path junk = _ from hcall))
  | write path buf offset =>
      obtain ⟨⟨_, ret⟩, hwrite, rfl⟩ := Option.map_eq_some_iff.mp hrun
      exact hgoal (h.write hwrite)
  | read path size offset => exact absurd hworks id
  | getattr path stat => exact absurd hworks id
  | readdir path offset => exact absurd hworks id
  | remount junk junk' => exact absurd hworks id

theorem freshFs_booked {szIo : ℕ} (hszIo : szIo ∣ 1024) (junk : Junk) (mapInode : List Byte) :
    Booked (freshFs szIo junk mapInode) := by
  have hempty := freshFs_empty hszIo junk mapInode
  have hnone : setBits (freshFs szIo junk mapInode).super.mapData = ∅ := by
    apply Finset.eq_empty_of_forall_notMem
    intro i hi
    have hset := (mem_setBits.mp hi).2
    change bit (ByteStore.slice (fun _ => (0 : Byte)) 2048 1024) i = true at hset
    rw [bit_zeros] at hset
    cases hset
  refine ⟨hempty.shaped, by exact ByteStore.length_slice _ _ _, ?_, ?_⟩
  · rw [Accounted, hnone, usedBlocks, hempty.geometry.blks]
    rfl
  · intro ptr dentry inode hptr hinode
    have hmem : dentry = freshRoot := List.mem_singleton.mp (List.mem_of_getElem? hptr)
    subst hmem
    cases hinode
    exact le_refl 0

/-- In a mount of a blank device the data bitmap is accounted for in every state just
when every call was balanced. -/
theorem data_bitmap_accounted_iff {szIo : ℕ} (hszIo : szIo ∣ 1024) {junk : Junk} {fs₀ fs : Fs}
    (hinit : init (blankDisk szIo) junk = some fs₀) {calls : List (Fs × Op × Fs)}
    (hrun : Trace WorkStep fs₀ calls fs) :
    (Accounted fs₀ ∧ ∀ e ∈ calls, Accounted e.2.2) ↔ ∀ e ∈ calls, Balanced e.1 e.2.1 := by
  obtain ⟨mapInode, -, hfresh⟩ := init_blank hszIo junk
  rw [hfresh] at hinit
  cases hinit
  have hbooked := freshFs_booked hszIo junk mapInode
  rw [← hrun.forall_iff Booked hbooked fun before op after h hstep => h.step hstep]
  exact and_iff_right hbooked.accounted

/-- A blank device before `mkdir /a`, after it, and after `mkdir /b` as well. -/
def twoDirs : Option (Fs × Fs × Fs) :=
  (init (blankDisk 512) fun _ => 0).bind fun fs₀ =>
    ((Op.mkdir (pathOf [[97]]) fun _ => 0).run fs₀).bind fun fs₁ =>
      ((Op.mkdir (pathOf [[98]]) fun _ => 0).run fs₁).map fun fs₂ => (fs₀, fs₁, fs₂)

theorem twoDirs_some {fs₀ fs₁ fs₂ : Fs} (h : twoDirs = some (fs₀, fs₁, fs₂)) :
    init (blankDisk 512) (fun _ => 0) = some fs₀ ∧
      WorkStep fs₀ (.mkdir (pathOf [[97]]) fun _ => 0) fs₁ ∧
      WorkStep fs₁ (.mkdir (pathOf [[98]]) fun _ => 0) fs₂ := by
  obtain ⟨fs, hinit, h⟩ := Option.bind_eq_some_iff.mp h
  obtain ⟨fs', hfirst, h⟩ := Option.bind_eq_some_iff.mp h
  obtain ⟨fs'', hsecond, h⟩ := Option.map_eq_some_iff.mp h
  cases h
  exact ⟨hinit, ⟨trivial, hfirst⟩, trivial, hsecond⟩

theorem twoDirs_counts :
    (twoDirs.map fun run =>
      ((claimBit run.1.super.mapData 0).map Prod.fst, run.1.super.maxData,
        run.1.heap.map fun dentry => dentry.inode.map Inode.size)) = some (some 0, 3968, [some 0]) ∧
      (twoDirs.map fun run =>
        (run.2.2.super.mapData.length, bit run.2.2.super.mapData 0, bit run.2.2.super.mapData 1,
          usedBlocks run.2.2)) = some (1024, true, true, 1) := by
  constructor <;> decide +kernel

/-- The first entry of the root opens its first block. -/
theorem data_bitmap_accounted_first :
    ∃ fs₀ fs₁ fs₂, twoDirs = some (fs₀, fs₁, fs₂) ∧ Accounted fs₁ := by
  obtain ⟨⟨fs₀, fs₁, fs₂⟩, htwo, hcounts⟩ := Option.map_eq_some_iff.mp twoDirs_counts.1
  obtain ⟨hinit, hfirst, -⟩ := twoDirs_some htwo
  simp only [Prod.mk.injEq] at hcounts
  obtain ⟨hclaim, hmax, hsizes⟩ := hcounts
  have hblks : blksSz fs₀.disk.szIo = 1024 := by
    obtain ⟨mapInode, -, hfresh⟩ := init_blank (show 512 ∣ 1024 by decide) fun _ => 0
    rw [hfresh] at hinit
    cases hinit
    exact (geometry_freshFs (show 512 ∣ 1024 by decide) (fun _ => 0) mapInode).blks
  refine ⟨fs₀, fs₁, fs₂, htwo, ?_⟩
  refine ((data_bitmap_accounted_iff (by decide) hinit (.snoc .nil hfirst)).mpr ?_).2
    (fs₀, _, fs₁) (List.mem_singleton.mpr rfl)
  intro e he
  rw [List.mem_singleton.mp he]
  rintro found inode - - ⟨dentry, hdentry, -, hinode⟩ c mapData hc
  have hzero : inode.size = 0 := by
    have hmem : dentry.inode.map Inode.size ∈ [some 0] := by
      rw [← hsizes]
      exact List.mem_map.mpr ⟨dentry, List.mem_of_getElem? hdentry, rfl⟩
    rw [hinode, List.mem_singleton] at hmem
    exact Option.some.inj hmem
  simp only at hc ⊢
  rw [hc] at hclaim
  cases hclaim
  rw [hmax, hblks, hzero]
  decide

/-- The second entry of the root claims a second bit although both fit in one block. -/
theorem data_bitmap_not_accounted :
    ∃ fs₀ fs₁ fs₂, twoDirs = some (fs₀, fs₁, fs₂) ∧
      init (blankDisk 512) (fun _ => 0) = some fs₀ ∧
      Trace WorkStep fs₀ [(fs₁, .mkdir (pathOf [[98]]) fun _ => 0, fs₂),
        (fs₀, .mkdir (pathOf [[97]]) fun _ => 0, fs₁)] fs₂ ∧
      ¬ Accounted fs₂ := by
  obtain ⟨⟨fs₀, fs₁, fs₂⟩, htwo, hcounts⟩ := Option.map_eq_some_iff.mp twoDirs_counts.2
  obtain ⟨hinit, hfirst, hsecond⟩ := twoDirs_some htwo
  simp only [Prod.mk.injEq] at hcounts
  obtain ⟨hlength, hbit₀, hbit₁, hused⟩ := hcounts
  refine ⟨fs₀, fs₁, fs₂, htwo, hinit, .snoc (.snoc .nil hfirst) hsecond, ?_⟩
  intro haccounted
  have hsub : ({0, 1} : Finset ℕ) ⊆ setBits fs₂.super.mapData := by
    intro i hi
    rw [mem_setBits, hlength]
    rcases Finset.mem_insert.mp hi with rfl | hi
    · exact ⟨by decide, hbit₀⟩
    · rw [Finset.mem_singleton.mp hi]
      exact ⟨by decide, hbit₁⟩
  have hcard := Finset.card_le_card hsub
  rw [Finset.card_pair (by decide)] at hcard
  rw [Accounted, hused] at haccounted
  omega

end Runs

end OperateSystem.Newfs

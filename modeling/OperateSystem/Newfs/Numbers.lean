import OperateSystem.Newfs.Limits

/-!
# Inode numbers

The number of a new inode is the position of the first clear bit of the inode bitmap.
The bitmap never loses a bit, so within one mount no two inodes get the same number.
-/

namespace OperateSystem.Newfs

open OperateSystem.Bitmap
open OperateSystem.Invariant

/-- `newfs_alloc_inode` finds a number for the dentry that the call comes to make, if any:
it does not report `NEWFS_ERROR_NOSPACE`. -/
def FindsNumber (fs : Fs) (maker : Maker) (path : List Byte) (junk : Junk) : Prop :=
  ∀ last inode dentry, Makes fs maker path last inode dentry →
    (allocInode (blksSz fs.disk.szIo) fs.super dentry junk).2.inode.isSome

/-- A call of `newfs_mkdir` or `newfs_mknod`, whatever it returns. -/
def MakeStep (fs fs' : Fs) : Prop :=
  ∃ maker path junk ret, FindsNumber fs maker path junk ∧
    Maker.call maker fs path junk = some (fs', ret)

/-- Different inodes in memory have different numbers, and the bit of each is set. -/
structure UniqueNumbers (fs : Fs) : Prop where
  distinct : ∀ (ptr ptr' : DentryPtr) (dentry dentry' : Dentry) (inode inode' : Inode),
    fs.heap[ptr]? = some dentry → fs.heap[ptr']? = some dentry' → dentry.inode = some inode →
    dentry'.inode = some inode' → inode.ino = inode'.ino → ptr = ptr'
  marked : ∀ (ptr : DentryPtr) (dentry : Dentry) (inode : Inode), fs.heap[ptr]? = some dentry →
    dentry.inode = some inode → ∃ c : ℕ, inode.ino = c ∧ bit fs.super.mapInode c = true

/-- Where `newfs_alloc_inode` finds a number it is that of the first clear bit, which is set;
nothing else changes in `newfs_super`. -/
def PicksLeast (super : Super) : Prop :=
  ∀ blks dentry junk, dentry.inode = none → ∀ inode,
    (allocInode blks super dentry junk).2.inode = some inode →
    ∃ c mapInode, inode.ino = (c : ℕ) ∧ Claimed super.mapInode c mapInode ∧
      (allocInode blks super dentry junk).1 = { super with mapInode := mapInode }

theorem picksLeast (super : Super) : PicksLeast super := by
  intro blks dentry junk hnull inode hinode
  rw [allocInode] at hinode ⊢
  cases hclaim : claimBit super.mapInode 0 with
  | none =>
      rw [hclaim] at hinode
      rw [hnull] at hinode
      cases hinode
  | some claim =>
      obtain ⟨c, mapInode⟩ := claim
      rw [hclaim] at hinode
      by_cases hlimit : (c : Int) = super.maxIno
      · simp only [hlimit, if_true] at hinode
        rw [hnull] at hinode
        cases hinode
      · simp only [hlimit, if_false, Option.some.injEq] at hinode ⊢
        subst hinode
        exact ⟨c, mapInode, rfl, claimBit_some (by decide) hclaim, rfl⟩

/-- Within a mount of a blank device every dentry has its inode, so nothing is ever
loaded. -/
structure Live (fs : Fs) : Prop where
  loaded : ∀ (ptr : DentryPtr) (dentry : Dentry), fs.heap[ptr]? = some dentry →
    dentry.inode.isSome
  unique : UniqueNumbers fs

section Steps

variable {fs fs' : Fs} (h : Live fs)

include h

theorem Live.lookup {path : List Byte} {found : Lookup}
    (hlookup : lookup fs path = some (fs', found)) : fs' = fs := by
  obtain ⟨dentry, hptr, ⟨-, hsame⟩ | ⟨hnull, -⟩⟩ := loadInode_some (lookup_some hlookup).2.1
  · exact hsame
  · have hloaded := h.loaded _ dentry hptr
    rw [hnull] at hloaded
    cases hloaded

/-- The new inode has a number whose bit was clear, so none of the others has it. -/
theorem Live.create {ptr : DentryPtr} {dentry : Dentry} {junk : Junk} (hnull : dentry.inode = none)
    (hfinds : (allocInode (blksSz fs.disk.szIo) fs.super dentry junk).2.inode.isSome)
    (hcreate : Newfs.create fs ptr dentry junk = some fs') : Live fs' := by
  obtain ⟨last, lastInode, hlast, hlastInode, super, added, super', linked, halloc,
    ⟨ret, hlink⟩, rfl⟩ := create_some hcreate
  obtain ⟨inode, hinode⟩ := Option.isSome_iff_exists.mp hfinds
  obtain ⟨c, mapInode, hino, hclaimed, hsuper⟩ :=
    picksLeast fs.super _ dentry junk hnull inode hinode
  rw [halloc] at hinode hsuper
  simp only at hinode hsuper
  have hlinked := (allocDentry_grows (blksSz fs.disk.szIo) super lastInode fs.heap.length).2
  have hmap := allocDentry_mapInode (blksSz fs.disk.szIo) super lastInode fs.heap.length
  rw [hlink] at hlinked hmap
  simp only at hlinked hmap
  have hheap := heap_setInode_append hlast linked added
  -- An inode of the new state is the new one, or has the number of an old one.
  have hcases : ∀ (other : DentryPtr) (d : Dentry) (i : Inode),
      ((fs.setInode ptr last linked).heap ++ [added])[other]? = some d → d.inode = some i →
      (other = fs.heap.length ∧ i.ino = c) ∨
        ∃ d₀ i₀, fs.heap[other]? = some d₀ ∧ d₀.inode = some i₀ ∧ i.ino = i₀.ino := by
    intro other d i hother hi
    rw [hheap] at hother
    split at hother
    · rename_i hnew
      cases hother
      rw [hinode] at hi
      cases hi
      exact Or.inl ⟨hnew, hino⟩
    · split at hother
      · rename_i heq
        cases hother
        cases hi
        exact Or.inr ⟨last, lastInode, heq ▸ hlast, hlastInode, hlinked⟩
      · exact Or.inr ⟨d, i, hother, hi, rfl⟩
  have hbit : ∀ n, bit super'.mapInode n = (bit fs.super.mapInode n || decide (n = c)) := by
    intro n
    rw [hmap, hsuper]
    exact hclaimed.bit_eq n
  have hclear : ∀ (other : DentryPtr) (d₀ : Dentry) (i₀ : Inode), fs.heap[other]? = some d₀ →
      d₀.inode = some i₀ → i₀.ino ≠ c := by
    intro other d₀ i₀ hd₀ hi₀ heq
    obtain ⟨n, hn, hset⟩ := h.unique.marked other d₀ i₀ hd₀ hi₀
    rw [hn, Int.natCast_inj] at heq
    rw [heq, hclaimed.clear] at hset
    cases hset
  refine ⟨?_, ⟨?_, ?_⟩⟩
  · intro other d hother
    simp only [hheap] at hother
    split at hother
    · cases hother
      rw [hinode]
      rfl
    · split at hother
      · cases hother
        rfl
      · exact h.loaded other d hother
  · intro p p' d d' i i' hp hp' hi hi' hsame
    rcases hcases p d i hp hi with ⟨hnew, hnum⟩ | ⟨d₀, i₀, hd₀, hi₀, hnum⟩ <;>
      rcases hcases p' d' i' hp' hi' with ⟨hnew', hnum'⟩ | ⟨d₁, i₁, hd₁, hi₁, hnum'⟩
    · rw [hnew, hnew']
    · rw [hnum, hnum'] at hsame
      exact absurd hsame.symm (hclear p' d₁ i₁ hd₁ hi₁)
    · rw [hnum, hnum'] at hsame
      exact absurd hsame (hclear p d₀ i₀ hd₀ hi₀)
    · rw [hnum, hnum'] at hsame
      exact h.unique.distinct p p' d₀ d₁ i₀ i₁ hd₀ hd₁ hi₀ hi₁ hsame
  · intro other d i hother hi
    rcases hcases other d i hother hi with ⟨-, hnum⟩ | ⟨d₀, i₀, hd₀, hi₀, hnum⟩
    · refine ⟨c, hnum, ?_⟩
      simp only [hbit]
      simp
    · obtain ⟨n, hn, hset⟩ := h.unique.marked other d₀ i₀ hd₀ hi₀
      refine ⟨n, hnum.trans hn, ?_⟩
      simp only [hbit]
      rw [hset, Bool.true_or]

theorem Live.step (hstep : MakeStep fs fs') : Live fs' := by
  obtain ⟨maker, path, junk, ret, hfinds, hcall⟩ := hstep
  by_cases hret : ret = 0
  · subst hret
    obtain ⟨found, inode, fname, ftype, dentry, hlookup, hmiss, hopen, hfname, hftype, hdentry,
      hcreate⟩ := Maker.call_zero hcall
    have hfound := hfinds found.dentry inode dentry
      ⟨⟨found, hlookup, hmiss, rfl⟩, hopen, fname, ftype, hfname, hftype, hdentry⟩
    exact h.create (by rw [(newDentry_some hdentry).2]) hfound hcreate
  · obtain ⟨found, hlookup, -⟩ := Maker.call_error hcall hret
    rw [h.lookup hlookup]
    exact h

end Steps

/-- In every state that calls of `newfs_mkdir` and `newfs_mknod` reach within one mount of a
blank device, without running out of numbers, the numbers are unique and marked, and the
next one is the first that is not marked. -/
theorem inode_numbers_unique {szIo : ℕ} (hszIo : szIo ∣ 1024) {junk : Junk} {fs₀ fs : Fs}
    (hinit : init (blankDisk szIo) junk = some fs₀) (hrun : Reachable MakeStep fs₀ fs) :
    UniqueNumbers fs ∧ PicksLeast fs.super := by
  obtain ⟨mapInode, hclaimed, hfresh⟩ := init_blank hszIo junk
  rw [hfresh] at hinit
  cases hinit
  have honly : ∀ (ptr : DentryPtr) (dentry : Dentry),
      (freshFs szIo junk mapInode).heap[ptr]? = some dentry → ptr = 0 ∧ dentry = freshRoot := by
    intro ptr dentry hptr
    have hlt := (List.getElem?_eq_some_iff.mp hptr).1
    refine ⟨?_, List.mem_singleton.mp (List.mem_of_getElem? hptr)⟩
    simpa [freshFs] using hlt
  have hstart : Live (freshFs szIo junk mapInode) := by
    refine ⟨?_, ⟨?_, ?_⟩⟩
    · intro ptr dentry hptr
      rw [(honly ptr dentry hptr).2]
      rfl
    · intro ptr ptr' dentry dentry' inode inode' hptr hptr' _ _ _
      rw [(honly ptr dentry hptr).1, (honly ptr' dentry' hptr').1]
    · intro ptr dentry inode hptr hinode
      rw [(honly ptr dentry hptr).2] at hinode
      cases hinode
      refine ⟨0, rfl, ?_⟩
      change bit mapInode 0 = true
      rw [hclaimed.bit_eq]
      simp
  exact ⟨(reachable_invariant Live hstart (fun _ _ hlive => hlive.step) hrun).unique,
    picksLeast fs.super⟩

/-- After `mkdir /a`. -/
theorem inode_numbers_unique_first :
    ∃ fs₀ fs₁ ret, blankDir = some (fs₀, fs₁, ret) ∧ UniqueNumbers fs₁ ∧ PicksLeast fs₁.super := by
  obtain ⟨⟨fs₀, fs₁, ret⟩, hfirst, hcounts⟩ := Option.map_eq_some_iff.mp blankDir_counts
  simp only [Prod.mk.injEq] at hcounts
  obtain ⟨hino, -, hmaxIno, -⟩ := hcounts
  obtain ⟨fs, hinit, hcall⟩ := Option.bind_eq_some_iff.mp hfirst
  obtain ⟨call, hmkdir, heq⟩ := Option.map_eq_some_iff.mp hcall
  cases heq
  refine ⟨fs₀, fs₁, ret, hfirst, inode_numbers_unique (show 512 ∣ 1024 by decide) hinit
    (.tail .refl ⟨.mkdir, pathOf [[97]], fun _ => 0, ret, ?_, hmkdir⟩)⟩
  intro last inode dentry _
  obtain ⟨⟨c, mapInode⟩, hclaim, hc⟩ := Option.map_eq_some_iff.mp hino
  simp only at hc
  subst hc
  rw [allocInode, hclaim]
  have hlimit : ¬ ((1 : ℕ) : Int) = fs₀.super.maxIno := by
    rw [hmaxIno]
    decide
  simp only [hlimit, if_false]
  rfl

end OperateSystem.Newfs

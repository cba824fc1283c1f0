import OperateSystem.Newfs.Growth

/-!
# What linking an entry does

The size test of `newfs_alloc_dentry` is true for every size a directory can
have, so every entry that is linked claims a bit of the data bitmap, or is
linked without being counted when there is none or the bit is number
`max_data`.  Loading a directory links its entries again and so claims again.
-/

namespace OperateSystem.Newfs

open OperateSystem.Bitmap
open OperateSystem.ByteStore

/-- With `sizeof` alone under `%` and `/` the two sides never agree. -/
theorem needsDataBlock_eq_true {size : Int} (hlo : -2 ^ 31 ≤ size) (hhi : size < 2 ^ 31) :
    needsDataBlock size 1024 = true := by
  have hmod : (176 : Int).tmod 1024 = 176 := by decide
  have hdiv : (176 : Int).tdiv 1024 = 0 := by decide
  have hsplit := Int.mul_tdiv_add_tmod size 1024
  have hlt : size.tmod 1024 < 1024 := Int.tmod_lt_of_pos size (by decide)
  have hpos : 0 ≤ size → 0 ≤ size.tmod 1024 := fun h => Int.tmod_nonneg 1024 h
  have hneg : size ≤ 0 → -1024 < size.tmod 1024 ∧ size.tmod 1024 ≤ 0 := by
    intro h
    have hflip : size.tmod 1024 = -((-size).tmod 1024) := by simp
    have hnonneg := Int.tmod_nonneg 1024 (show 0 ≤ -size by omega)
    have hlt' := Int.tmod_lt_of_pos (-size) (show (0 : Int) < 1024 by decide)
    omega
  -- Both sides stay far below `2 ^ 64` in absolute value, so they are compared as integers.
  have hwrap : ∀ x y : Int, -2 ^ 62 < x → x < 2 ^ 62 → -2 ^ 62 < y → y < 2 ^ 62 → x ≠ y →
      x % 2 ^ 64 ≠ y % 2 ^ 64 := by
    intro x y
    omega
  simp only [needsDataBlock, sizeofDentry, hmod, hdiv, roundUp, decide_eq_true_eq]
  generalize size.tdiv 1024 = q at *
  generalize size.tmod 1024 = r at *
  split <;> split <;> apply hwrap <;> omega

section Link

variable {super : Super} {inode : Inode} (ptr : DentryPtr)
  (hlo : -2 ^ 31 ≤ inode.size) (hhi : inode.size < 2 ^ 31)

include hlo hhi

/-- With a full data bitmap the entry is linked and not counted. -/
theorem allocDentry_full (hfull : claimBit super.mapData 0 = none) :
    allocDentry 1024 super inode ptr
      = (super, { inode with dentrys := ptr :: inode.dentrys }, -errorNospace) := by
  simp only [allocDentry, needsDataBlock_eq_true hlo hhi, if_true, hfull]

/-- Otherwise the first clear bit is claimed, and the entry is counted unless
that bit is number `max_data`. -/
theorem allocDentry_claim {c : ℕ} {mapData : List Byte}
    (hclaim : claimBit super.mapData 0 = some (c, mapData)) :
    allocDentry 1024 super inode ptr
      = if (c : Int) = super.maxData then
          ({ super with mapData := mapData }, { inode with dentrys := ptr :: inode.dentrys },
            -errorNospace)
        else
          ({ super with mapData := mapData },
            { inode with
              dentrys := ptr :: inode.dentrys
              dirCnt := inode.dirCnt + 1
              size := toInt32 (inode.size + sizeofDentry) }, inode.dirCnt + 1) := by
  simp only [allocDentry, needsDataBlock_eq_true hlo hhi, if_true, hclaim]

end Link

theorem toInt32_range (x : Int) : -2 ^ 31 ≤ toInt32 x ∧ toInt32 x < 2 ^ 31 := by
  simp only [toInt32, Int.bmod]
  omega

/-- Loading with a full data bitmap counts nothing and claims nothing. -/
theorem readDentrys_full {ino : Int} {count : ℕ} {i : Int} {fs fs' : Fs} {inode inode' : Inode}
    (hblks : blksSz fs.disk.szIo = 1024) (hlo : -2 ^ 31 ≤ inode.size)
    (hhi : inode.size < 2 ^ 31) (hfull : claimBit fs.super.mapData 0 = none)
    (h : readDentrys ino count i fs inode = some (fs', inode')) :
    fs'.super = fs.super ∧ inode'.dirCnt = inode.dirCnt ∧ inode'.size = inode.size := by
  induction count generalizing i fs inode with
  | zero =>
      cases h
      exact ⟨rfl, rfl, rfl⟩
  | succ count ih =>
      obtain ⟨bytes, sub, -, -, hrest⟩ := readDentrys_succ h
      rw [hblks, allocDentry_full _ hlo hhi hfull] at hrest
      have hrec := ih (by exact hblks) (by exact hlo) (by exact hhi) (by exact hfull) hrest
      exact hrec

/-- Loading at least one entry while a data bit is clear claims a bit. -/
theorem readDentrys_claims {ino : Int} {count : ℕ} {i : Int} {fs fs' : Fs}
    {inode inode' : Inode} (hblks : blksSz fs.disk.szIo = 1024) (hlo : -2 ^ 31 ≤ inode.size)
    (hhi : inode.size < 2 ^ 31) {c : ℕ} {mapData : List Byte}
    (hclaim : claimBit fs.super.mapData 0 = some (c, mapData))
    (h : readDentrys ino (count + 1) i fs inode = some (fs', inode')) :
    bit fs'.super.mapData c = true := by
  obtain ⟨bytes, sub, -, -, hrest⟩ := readDentrys_succ h
  rw [hblks, allocDentry_claim _ hlo hhi hclaim] at hrest
  obtain ⟨-, hsuper, -, -⟩ := readDentrys_grows hrest
  apply hsuper.mapData.bits c
  have hset : bit mapData c = true := by
    rw [(claimBit_some (by decide) hclaim).bit_eq]
    simp
  split <;> exact hset

end OperateSystem.Newfs

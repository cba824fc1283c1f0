import Mathlib.Tactic.Linarith
import Mathlib.Tactic.Positivity
import Mathlib.Tactic.Ring
import OperateSystem.Core.ByteStore
import OperateSystem.Newfs.Layout

/-!
# Device access

The ddriver device transfers one IO unit at an aligned position and advances.
`newfs_driver_read` and `newfs_driver_write` turn that into access to any byte
range.  Both always return `NEWFS_ERROR_NONE`, so the result of the model is the
data alone; `none` stands for an access outside a buffer or the device.
-/

namespace OperateSystem.Newfs

open OperateSystem.ByteStore

/-- The device: its contents, `IOC_REQ_DEVICE_SIZE` and `IOC_REQ_DEVICE_IO_SZ`. -/
structure Disk where
  bytes : ℕ → Byte
  size : ℕ
  szIo : ℕ

/-- `ddriver_seek(fd, offset, SEEK_SET)`; the position must be a multiple of the
IO unit. -/
def ddriverSeek (disk : Disk) (offset : Int) : Option ℕ :=
  if 0 ≤ offset ∧ offset % disk.szIo = 0 then some offset.toNat else none

/-- `ddriver_read(fd, buf, size)` at position `pos`; the size must be one IO
unit.  The result is the data and the advanced position. -/
def ddriverRead (disk : Disk) (pos size : ℕ) : Option (List Byte × ℕ) :=
  if size = disk.szIo ∧ pos + size ≤ disk.size then
    some (slice disk.bytes pos size, pos + size)
  else none

/-- `ddriver_write(fd, buf, size)` at position `pos`, with `size` bytes in the
buffer. -/
def ddriverWrite (disk : Disk) (pos : ℕ) (buf : List Byte) : Option (Disk × ℕ) :=
  if buf.length = disk.szIo ∧ pos + buf.length ≤ disk.size then
    some ({ disk with bytes := overwrite disk.bytes pos buf }, pos + buf.length)
  else none

/-- The loop of `newfs_driver_read`.  It ends when `size_aligned` is exactly
zero. -/
def driverReadLoop (disk : Disk) : (fuel : ℕ) → (pos : ℕ) → (sizeAligned : Int) →
    Option (List Byte)
  | 0, _, sizeAligned => if sizeAligned = 0 then some [] else none
  | fuel + 1, pos, sizeAligned =>
      if sizeAligned = 0 then some []
      else do
        let (block, pos') ← ddriverRead disk pos disk.szIo
        let rest ← driverReadLoop disk fuel pos' (sizeAligned - disk.szIo)
        return block ++ rest

/-- The loop of `newfs_driver_write`; `cur` is what is left of `temp_content`. -/
def driverWriteLoop : (fuel : ℕ) → Disk → (pos : ℕ) → (cur : List Byte) →
    (sizeAligned : Int) → Option Disk
  | 0, disk, _, _, sizeAligned => if sizeAligned = 0 then some disk else none
  | fuel + 1, disk, pos, cur, sizeAligned =>
      if sizeAligned = 0 then some disk
      else do
        let (disk', pos') ← ddriverWrite disk pos (cur.take disk.szIo)
        driverWriteLoop fuel disk' pos' (cur.drop disk.szIo) (sizeAligned - disk.szIo)

/-- `newfs_driver_read(offset, out_content, size)`. -/
def driverRead (disk : Disk) (offset size : Int) : Option (List Byte) := do
  let offsetAligned := roundDown offset (blksSz disk.szIo)
  let bias := offset - offsetAligned
  let sizeAligned := roundUp (size + bias) (blksSz disk.szIo)
  let pos ← ddriverSeek disk offsetAligned
  let tempContent ← driverReadLoop disk sizeAligned.toNat pos sizeAligned
  -- memcpy(out_content, temp_content + bias, size)
  if 0 ≤ bias ∧ 0 ≤ size ∧ bias + size ≤ tempContent.length then
    return (tempContent.drop bias.toNat).take size.toNat
  else none

/-- `newfs_driver_write(offset, in_content, size)`. -/
def driverWrite (disk : Disk) (offset : Int) (inContent : List Byte) (size : Int) :
    Option Disk := do
  let offsetAligned := roundDown offset (blksSz disk.szIo)
  let bias := offset - offsetAligned
  let sizeAligned := roundUp (size + bias) (blksSz disk.szIo)
  let tempContent ← driverRead disk offsetAligned sizeAligned
  -- memcpy(temp_content + bias, in_content, size)
  if 0 ≤ bias ∧ 0 ≤ size ∧ bias + size ≤ tempContent.length ∧ size ≤ inContent.length then
    let tempContent := patch tempContent bias.toNat (inContent.take size.toNat)
    let pos ← ddriverSeek disk offsetAligned
    driverWriteLoop sizeAligned.toNat disk pos tempContent sizeAligned
  else none

/-- The end of the block-aligned range around `[offset, offset + size)`. -/
def alignedEnd (szIo : ℕ) (offset size : Int) : Int :=
  let offsetAligned := roundDown offset (blksSz szIo)
  offsetAligned + roundUp (size + (offset - offsetAligned)) (blksSz szIo)

section Loops

variable {disk : Disk}

/-- Whatever the read loop returns is the requested range, and the range is on
the device. -/
theorem driverReadLoop_some {fuel pos : ℕ} {sizeAligned : Int} {out : List Byte}
    (h : driverReadLoop disk fuel pos sizeAligned = some out) :
    sizeAligned = out.length ∧ out = slice disk.bytes pos out.length ∧
      (out = [] ∨ pos + out.length ≤ disk.size) := by
  induction fuel generalizing pos sizeAligned out with
  | zero =>
      rw [driverReadLoop] at h
      split at h
      · cases h
        exact ⟨by assumption, rfl, Or.inl rfl⟩
      · simp at h
  | succ fuel ih =>
      rw [driverReadLoop] at h
      split at h
      · cases h
        exact ⟨by assumption, rfl, Or.inl rfl⟩
      · simp only [ddriverRead, true_and] at h
        split at h
        · simp only [Option.bind_eq_bind, Option.bind_some] at h
          obtain ⟨rest, hrest, hout⟩ := Option.bind_eq_some_iff.mp h
          cases hout
          obtain ⟨hsize, hslice, hbound⟩ := ih hrest
          refine ⟨?_, ?_, Or.inr ?_⟩
          · simp only [List.length_append, length_slice]
            omega
          · rw [List.length_append, length_slice, slice_add, ← hslice]
          · cases hbound with
            | inl hnil =>
                subst hnil
                simpa using by assumption
            | inr hbound =>
                simp only [List.length_append, length_slice]
                omega
        · simp at h

/-- The read loop returns every range of whole IO units on the device. -/
theorem driverReadLoop_eq (hszIo : 0 < disk.szIo) {fuel pos count : ℕ}
    (hfuel : count ≤ fuel) (hbound : pos + disk.szIo * count ≤ disk.size) :
    driverReadLoop disk fuel pos (disk.szIo * count)
      = some (slice disk.bytes pos (disk.szIo * count)) := by
  induction count generalizing fuel pos with
  | zero => cases fuel <;> simp [driverReadLoop]
  | succ count ih =>
      cases fuel with
      | zero => omega
      | succ fuel =>
          have hpos : (disk.szIo * (count + 1) : Int) ≠ 0 := by positivity
          have hnext : (disk.szIo * (count + 1) : Int) - disk.szIo = disk.szIo * count := by
            ring
          have hunit : pos + disk.szIo ≤ disk.size := by nlinarith
          have hrest := @ih fuel (pos + disk.szIo) (by omega)
            (by rw [Nat.mul_succ] at hbound; omega)
          rw [driverReadLoop]
          push_cast
          rw [if_neg hpos, hnext, ddriverRead, if_pos ⟨rfl, hunit⟩]
          simp only [Option.bind_eq_bind, Option.bind_some, hrest]
          rw [Nat.mul_succ, Nat.add_comm (disk.szIo * count), slice_add]
          rfl

theorem driverWriteLoop_some {fuel pos : ℕ} {disk disk' : Disk} {cur : List Byte}
    {sizeAligned : Int} (hcur : sizeAligned = cur.length)
    (h : driverWriteLoop fuel disk pos cur sizeAligned = some disk') :
    disk' = { disk with bytes := overwrite disk.bytes pos cur } := by
  induction fuel generalizing disk pos cur sizeAligned with
  | zero =>
      rw [driverWriteLoop] at h
      split at h
      · have hnil : cur = [] := List.eq_nil_of_length_eq_zero (by omega)
        cases h
        simp [hnil]
      · simp at h
  | succ fuel ih =>
      rw [driverWriteLoop] at h
      split at h
      · have hnil : cur = [] := List.eq_nil_of_length_eq_zero (by omega)
        cases h
        simp [hnil]
      · rw [ddriverWrite] at h
        split at h
        · rename_i hunit
          simp only [Option.bind_eq_bind, Option.bind_some] at h
          have hlen : (cur.take disk.szIo).length = disk.szIo := hunit.1
          have hle : disk.szIo ≤ cur.length := by
            rw [List.length_take] at hlen
            omega
          have hrest := ih (by rw [List.length_drop]; omega) h
          rw [hrest, ← overwrite_append, List.take_append_drop]
        · simp at h

theorem driverWriteLoop_eq (hszIo : 0 < disk.szIo) {fuel pos count : ℕ} {cur : List Byte}
    (hfuel : count ≤ fuel) (hcur : cur.length = disk.szIo * count)
    (hbound : pos + disk.szIo * count ≤ disk.size) :
    driverWriteLoop fuel disk pos cur (disk.szIo * count)
      = some { disk with bytes := overwrite disk.bytes pos cur } := by
  induction count generalizing fuel pos disk cur with
  | zero =>
      have hnil : cur = [] := List.eq_nil_of_length_eq_zero (by omega)
      cases fuel <;> simp [driverWriteLoop, hnil]
  | succ count ih =>
      cases fuel with
      | zero => omega
      | succ fuel =>
          rw [Nat.mul_succ] at hcur hbound
          have hpos : (disk.szIo * (count + 1) : Int) ≠ 0 := by positivity
          have hnext : (disk.szIo * (count + 1) : Int) - disk.szIo = disk.szIo * count := by
            ring
          have hunit : (cur.take disk.szIo).length = disk.szIo := by
            rw [List.length_take]
            omega
          rw [driverWriteLoop]
          push_cast
          rw [if_neg hpos, hnext, ddriverWrite, if_pos ⟨hunit, by omega⟩, hunit]
          simp only [Option.bind_eq_bind, Option.bind_some]
          have hrest := @ih { disk with bytes := overwrite disk.bytes pos (cur.take disk.szIo) }
            hszIo fuel (pos + disk.szIo) (cur.drop disk.szIo) (by omega)
            (by rw [List.length_drop]; show _ = disk.szIo * count; omega)
            (by show _ + disk.szIo * count ≤ disk.size; omega)
          rw [hrest]
          have hsplit : overwrite disk.bytes pos cur
              = overwrite (overwrite disk.bytes pos (cur.take disk.szIo)) (pos + disk.szIo)
                  (cur.drop disk.szIo) := by
            conv_lhs => rw [← List.take_append_drop disk.szIo cur, overwrite_append, hunit]
          rw [hsplit]

end Loops

section Ranges

variable {disk disk' : Disk} {offset size : Int}

/-- A read that returns has returned exactly the range it was asked for. -/
theorem driverRead_some {out : List Byte} (h : driverRead disk offset size = some out) :
    0 ≤ offset ∧ 0 ≤ size ∧ out = slice disk.bytes offset.toNat size.toNat := by
  simp only [driverRead, ddriverSeek] at h
  split at h
  · rename_i hseek
    simp only [Option.bind_eq_bind, Option.bind_some] at h
    obtain ⟨temp, htemp, hcopy⟩ := Option.bind_eq_some_iff.mp h
    split at hcopy
    · rename_i hfit
      obtain ⟨-, hslice, -⟩ := driverReadLoop_some htemp
      cases hcopy
      refine ⟨by omega, hfit.2.1, ?_⟩
      obtain ⟨bias, hbias⟩ := Int.eq_ofNat_of_zero_le hfit.1
      have hlen : temp.length = bias + (temp.length - bias) := by omega
      have hstart : (roundDown offset (blksSz disk.szIo)).toNat + bias = offset.toNat := by
        omega
      rw [hslice, hlen, hbias, Int.toNat_natCast, drop_slice, take_slice _ _ _ _ (by omega),
        hstart]
    · simp at hcopy
  · simp at h

/-- A read of at least one byte returns only when the range is on the device. -/
theorem driverRead_fits {out : List Byte} (h : driverRead disk offset size = some out)
    (hsize : 0 < size) : offset + size ≤ disk.size := by
  simp only [driverRead, ddriverSeek] at h
  split at h
  · rename_i hseek
    simp only [Option.bind_eq_bind, Option.bind_some] at h
    obtain ⟨temp, htemp, hcopy⟩ := Option.bind_eq_some_iff.mp h
    split at hcopy
    · rename_i hfit
      obtain ⟨-, -, hnil | hbound⟩ := driverReadLoop_some htemp
      · rw [hnil] at hfit
        simp only [List.length_nil] at hfit
        omega
      · omega
    · simp at hcopy
  · simp at h

/-- The aligned range around a request: it starts `bias` bytes before the
request at a multiple of the block size and is a whole number of IO units. -/
theorem exists_aligned {szIo : ℕ} (hszIo : 0 < szIo) (hoffset : 0 ≤ offset) (hsize : 0 ≤ size) :
    ∃ lo bias count : ℕ,
      roundDown offset (blksSz szIo) = lo ∧ offset - lo = bias ∧
      roundUp (size + bias) (blksSz szIo) = szIo * count ∧
      blksSz szIo ∣ lo ∧ (lo : Int) % szIo = 0 ∧ bias + size ≤ szIo * count := by
  obtain ⟨hunit, hblk⟩ := blksSz_spec hszIo
  have hblkPos : (0 : Int) < blksSz szIo := by omega
  obtain ⟨hdown, hdownNonneg, hdownLe, -⟩ := roundDown_spec hoffset hblkPos
  obtain ⟨lo, hlo⟩ := Int.eq_ofNat_of_zero_le hdownNonneg
  obtain ⟨bias, hbias⟩ := Int.eq_ofNat_of_zero_le (show 0 ≤ offset - lo by omega)
  obtain ⟨hup, hupGe, -⟩ := roundUp_spec (show 0 ≤ size + bias by omega) hblkPos
  obtain ⟨count, hcount⟩ := Int.dvd_trans hunit hup
  have hcountNonneg : 0 ≤ count := by
    by_contra hneg
    have hszIo' : (0 : Int) < szIo := by omega
    have hprod := Int.mul_neg_of_pos_of_neg hszIo' (not_le.mp hneg)
    omega
  obtain ⟨count, rfl⟩ := Int.eq_ofNat_of_zero_le hcountNonneg
  have hdvd : blksSz szIo ∣ (lo : Int) := hlo ▸ hdown
  exact ⟨lo, bias, count, hlo, hbias, hcount, hdvd,
    Int.emod_eq_zero_of_dvd (Int.dvd_trans hunit hdvd), by omega⟩

/-- A read whose aligned range is on the device returns. -/
theorem driverRead_eq (hszIo : 0 < disk.szIo) (hoffset : 0 ≤ offset) (hsize : 0 ≤ size)
    (hend : alignedEnd disk.szIo offset size ≤ disk.size) :
    driverRead disk offset size = some (slice disk.bytes offset.toNat size.toNat) := by
  obtain ⟨lo, bias, count, hlo, hbias, hcount, -, hseek, hfit⟩ :=
    exists_aligned hszIo hoffset hsize
  simp only [alignedEnd, hlo, hbias, hcount] at hend
  have hread : driverRead disk offset size ≠ none := by
    have hloop : driverReadLoop disk (disk.szIo * count : Int).toNat lo (disk.szIo * count)
        = some (slice disk.bytes lo (disk.szIo * count)) := by
      apply driverReadLoop_eq hszIo
      · have hle : count ≤ disk.szIo * count := Nat.le_mul_of_pos_left count hszIo
        zify at hle ⊢
        omega
      · zify
        omega
    have hcopy : True ∧ 0 ≤ size ∧ bias + size ≤ ((disk.szIo * count : ℕ) : Int) := by
      push_cast
      exact ⟨trivial, hsize, hfit⟩
    simp only [driverRead, hlo, hbias, hcount, ddriverSeek, hseek, Int.natCast_nonneg,
      and_self, if_true, Option.bind_eq_bind, Option.bind_some, Int.toNat_natCast, hloop,
      length_slice]
    rw [if_pos hcopy]
    simp
  obtain ⟨out, hout⟩ := Option.ne_none_iff_exists'.mp hread
  rw [hout, (driverRead_some hout).2.2]

/-- A write that returns has replaced exactly the range it was asked to. -/
theorem driverWrite_some {inContent : List Byte}
    (h : driverWrite disk offset inContent size = some disk') :
    0 ≤ offset ∧ 0 ≤ size ∧ size ≤ inContent.length ∧
      disk' = { disk with
        bytes := overwrite disk.bytes offset.toNat (inContent.take size.toNat) } := by
  rw [driverWrite] at h
  obtain ⟨temp, htemp, hrest⟩ := Option.bind_eq_some_iff.mp h
  split at hrest
  · rename_i hfit
    obtain ⟨pos, hseek, hloop⟩ := Option.bind_eq_some_iff.mp hrest
    obtain ⟨hdownNonneg, hupNonneg, hslice⟩ := driverRead_some htemp
    have hpos : pos = (roundDown offset (blksSz disk.szIo)).toNat := by
      rw [ddriverSeek] at hseek
      split at hseek
      · exact (Option.some.inj hseek).symm
      · simp at hseek
    obtain ⟨bias, hbias⟩ := Int.eq_ofNat_of_zero_le hfit.1
    have htake : (inContent.take size.toNat).length = size.toNat := by
      rw [List.length_take]
      omega
    have hlen : bias + (inContent.take size.toNat).length ≤ temp.length := by omega
    have htempLen : temp.length
        = (roundUp (size + (offset - roundDown offset (blksSz disk.szIo)))
            (blksSz disk.szIo)).toNat := by
      rw [hslice, length_slice]
    rw [hbias, Int.toNat_natCast] at hloop
    have hdisk := driverWriteLoop_some (by rw [length_patch _ _ _ hlen, ← hbias]; omega) hloop
    have hstart : pos + bias = offset.toNat := by omega
    refine ⟨by omega, hfit.2.1, hfit.2.2.2, ?_⟩
    rw [hdisk, hslice, hpos, overwrite_patch_slice _ _ _ _ _ (by rw [← htempLen]; exact hlen),
      ← hpos, hstart]
  · simp at hrest

/-- A write whose aligned range is on the device returns. -/
theorem driverWrite_eq (hszIo : 0 < disk.szIo) {inContent : List Byte} (hoffset : 0 ≤ offset)
    (hsize : 0 ≤ size) (hcontent : size ≤ inContent.length)
    (hend : alignedEnd disk.szIo offset size ≤ disk.size) :
    driverWrite disk offset inContent size = some { disk with
      bytes := overwrite disk.bytes offset.toNat (inContent.take size.toNat) } := by
  obtain ⟨lo, bias, count, hlo, hbias, hcount, hdvd, hseek, hfit⟩ :=
    exists_aligned hszIo hoffset hsize
  simp only [alignedEnd, hlo, hbias, hcount] at hend
  have hcountNat : ((disk.szIo * count : Int)).toNat = disk.szIo * count := by
    rw [← Int.natCast_mul, Int.toNat_natCast]
  have hupDvd : blksSz disk.szIo ∣ (disk.szIo * count : Int) := by
    rw [← hcount]
    exact (roundUp_spec (by omega) (by have := (blksSz_spec hszIo).2; omega)).1
  have hread : driverRead disk lo (disk.szIo * count)
      = some (slice disk.bytes lo (disk.szIo * count)) := by
    rw [driverRead_eq hszIo (Int.natCast_nonneg lo) (by positivity), Int.toNat_natCast, hcountNat]
    rw [alignedEnd, roundDown_of_dvd hdvd]
    simp only [sub_self, add_zero]
    rw [roundUp_of_dvd hupDvd]
    exact hend
  have hwrite : driverWrite disk offset inContent size ≠ none := by
    have hcopy : True ∧ 0 ≤ size ∧ bias + size ≤ ((disk.szIo * count : ℕ) : Int) ∧
        size ≤ inContent.length := by
      push_cast
      exact ⟨trivial, hsize, hfit, hcontent⟩
    have htake : (inContent.take size.toNat).length = size.toNat := by
      rw [List.length_take]
      omega
    have hpatch : (patch (slice disk.bytes lo (disk.szIo * count)) bias
        (inContent.take size.toNat)).length = disk.szIo * count := by
      rw [length_patch _ _ _ (by rw [htake, length_slice]; zify; omega), length_slice]
    have hloop := @driverWriteLoop_eq disk hszIo (disk.szIo * count) lo count
      (patch (slice disk.bytes lo (disk.szIo * count)) bias (inContent.take size.toNat))
      (Nat.le_mul_of_pos_left count hszIo) hpatch (by zify; omega)
    simp only [driverWrite, hlo, hbias, hcount, hread, ddriverSeek, hseek, Int.natCast_nonneg,
      and_self, if_true, Option.bind_eq_bind, Option.bind_some, Int.toNat_natCast,
      length_slice, hcountNat]
    rw [if_pos hcopy, hloop]
    simp
  obtain ⟨disk', hdisk⟩ := Option.ne_none_iff_exists'.mp hwrite
  rw [hdisk, (driverWrite_some hdisk).2.2.2]

end Ranges

end OperateSystem.Newfs

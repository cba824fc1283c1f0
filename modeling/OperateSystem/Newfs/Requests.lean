import OperateSystem.Newfs.Driver

/-!
# The requests that device access makes

The device keeps a position and takes whatever request comes; here it also keeps a
record of them.  `newfs_driver_read` and `newfs_driver_write` stop only when the bytes
left are exactly zero, so that they end at all rests on the rounded size being a whole
number of IO units.
-/

namespace OperateSystem.Newfs

open OperateSystem.ByteStore

/-- A call of the ddriver library: the offset of a seek, or the position and the size of
a transfer. -/
inductive Request
  | seek (offset : Int)
  | read (pos size : ℕ)
  | write (pos size : ℕ)

/-- The call is made at a multiple of the IO unit and transfers one unit. -/
def Request.Aligned (szIo : ℕ) : Request → Prop
  | seek offset => (szIo : Int) ∣ offset
  | read pos size => szIo ∣ pos ∧ size = szIo
  | write pos size => szIo ∣ pos ∧ size = szIo

/-- The device with its position and the calls made so far. -/
structure Device where
  disk : Disk
  pos : ℕ
  requests : List Request

namespace Device

/-- `ddriver_seek(fd, offset, SEEK_SET)`. -/
def seek (device : Device) (offset : Int) : Option Device :=
  if 0 ≤ offset then
    some { device with pos := offset.toNat, requests := device.requests ++ [.seek offset] }
  else none

/-- `ddriver_read(fd, buf, size)`. -/
def read (device : Device) (size : ℕ) : Option (List Byte × Device) :=
  if device.pos + size ≤ device.disk.size then
    some (slice device.disk.bytes device.pos size,
      { device with
        pos := device.pos + size
        requests := device.requests ++ [.read device.pos size] })
  else none

/-- `ddriver_write(fd, buf, size)`, with `size` bytes in the buffer. -/
def write (device : Device) (buf : List Byte) : Option Device :=
  if device.pos + buf.length ≤ device.disk.size then
    some
      { disk := { device.disk with bytes := overwrite device.disk.bytes device.pos buf }
        pos := device.pos + buf.length
        requests := device.requests ++ [.write device.pos buf.length] }
  else none

/-- The loop of `newfs_driver_read`, which ends when `size_aligned` is exactly zero. -/
def readLoop : (fuel : ℕ) → Device → (sizeAligned : Int) → Option (List Byte × Device)
  | 0, device, sizeAligned => if sizeAligned = 0 then some ([], device) else none
  | fuel + 1, device, sizeAligned =>
      if sizeAligned = 0 then some ([], device)
      else do
        let szIo := device.disk.szIo
        let (block, device) ← device.read szIo
        let (rest, device) ← readLoop fuel device (sizeAligned - szIo)
        return (block ++ rest, device)

/-- The loop of `newfs_driver_write`; `cur` is what is left of `temp_content`. -/
def writeLoop : (fuel : ℕ) → Device → (cur : List Byte) → (sizeAligned : Int) → Option Device
  | 0, device, _, sizeAligned => if sizeAligned = 0 then some device else none
  | fuel + 1, device, cur, sizeAligned =>
      if sizeAligned = 0 then some device
      else do
        let szIo := device.disk.szIo
        let device ← device.write (cur.take szIo)
        writeLoop fuel device (cur.drop szIo) (sizeAligned - szIo)

/-- `newfs_driver_read(offset, out_content, size)`. -/
def driverRead (device : Device) (offset size : Int) : Option (List Byte × Device) := do
  let blks := blksSz device.disk.szIo
  let offsetAligned := roundDown offset blks
  let bias := offset - offsetAligned
  let sizeAligned := roundUp (size + bias) blks
  let device ← device.seek offsetAligned
  let (tempContent, device) ← device.readLoop sizeAligned.toNat sizeAligned
  if 0 ≤ bias ∧ 0 ≤ size ∧ bias + size ≤ tempContent.length then
    return ((tempContent.drop bias.toNat).take size.toNat, device)
  else none

/-- `newfs_driver_write(offset, in_content, size)`. -/
def driverWrite (device : Device) (offset : Int) (inContent : List Byte) (size : Int) :
    Option Device := do
  let blks := blksSz device.disk.szIo
  let offsetAligned := roundDown offset blks
  let bias := offset - offsetAligned
  let sizeAligned := roundUp (size + bias) blks
  let (tempContent, device) ← device.driverRead offsetAligned sizeAligned
  if 0 ≤ bias ∧ 0 ≤ size ∧ bias + size ≤ tempContent.length ∧ size ≤ inContent.length then
    let tempContent := patch tempContent bias.toNat (inContent.take size.toNat)
    let device ← device.seek offsetAligned
    device.writeLoop sizeAligned.toNat tempContent sizeAligned
  else none

end Device

/-- The call returns what is given and makes aligned requests only; the device becomes
`disk`. -/
def Answers (device : Device) (disk : Disk) (device' : Device) : Prop :=
  device'.disk = disk ∧ ∃ requests, device'.requests = device.requests ++ requests ∧
    ∀ request ∈ requests, request.Aligned disk.szIo

section Loops

variable {device device' device'' : Device} {disk disk' : Disk}

theorem Answers.refl (device : Device) : Answers device device.disk device :=
  ⟨rfl, [], by simp, by simp⟩

theorem Answers.trans (h : Answers device disk device') (h' : Answers device' disk' device'')
    (hszIo : disk'.szIo = disk.szIo) : Answers device disk' device'' := by
  obtain ⟨-, requests, hrequests, haligned⟩ := h
  obtain ⟨hdisk, requests', hrequests', haligned'⟩ := h'
  refine ⟨hdisk, requests ++ requests', by rw [hrequests', hrequests, List.append_assoc], ?_⟩
  intro request hmem
  rcases List.mem_append.mp hmem with hmem | hmem
  · rw [hszIo]
    exact haligned request hmem
  · exact haligned' request hmem

theorem Device.seek_answers {lo : ℕ} (hlo : device.disk.szIo ∣ lo) :
    ∃ device', device.seek lo = some device' ∧ device'.pos = lo ∧
      Answers device device.disk device' := by
  refine ⟨_, if_pos (Int.natCast_nonneg lo), Int.toNat_natCast lo, rfl, [.seek lo], rfl, ?_⟩
  intro request hrequest
  rw [List.mem_singleton.mp hrequest]
  exact Int.natCast_dvd_natCast.mpr hlo

/-- The read loop returns every range of whole IO units on the device. -/
theorem Device.readLoop_answers (hszIo : 0 < device.disk.szIo) {fuel count : ℕ}
    (hpos : device.disk.szIo ∣ device.pos) (hfuel : count ≤ fuel)
    (hbound : device.pos + device.disk.szIo * count ≤ device.disk.size) :
    ∃ device', device.readLoop fuel (device.disk.szIo * count)
        = some (slice device.disk.bytes device.pos (device.disk.szIo * count), device') ∧
      Answers device device.disk device' := by
  induction count generalizing fuel device with
  | zero =>
      refine ⟨device, ?_, Answers.refl device⟩
      cases fuel <;> simp [Device.readLoop]
  | succ count ih =>
      obtain ⟨fuel, rfl⟩ := Nat.exists_eq_add_of_le' hfuel
      rw [Nat.mul_succ] at hbound
      have hne : (device.disk.szIo * (count + 1 : ℕ) : Int) ≠ 0 := by positivity
      have hnext : (device.disk.szIo * (count + 1 : ℕ) : Int) - device.disk.szIo
          = device.disk.szIo * count := by
        push_cast
        ring
      have hread : device.read device.disk.szIo
          = some (slice device.disk.bytes device.pos device.disk.szIo,
            { device with
              pos := device.pos + device.disk.szIo
              requests := device.requests ++ [.read device.pos device.disk.szIo] }) :=
        if_pos (by omega)
      have hfirst : Answers device device.disk
          { device with
            pos := device.pos + device.disk.szIo
            requests := device.requests ++ [.read device.pos device.disk.szIo] } := by
        refine ⟨rfl, [.read device.pos device.disk.szIo], rfl, ?_⟩
        intro request hrequest
        rw [List.mem_singleton.mp hrequest]
        exact ⟨hpos, rfl⟩
      obtain ⟨device', hrest, hanswers⟩ := @ih
        { device with
          pos := device.pos + device.disk.szIo
          requests := device.requests ++ [.read device.pos device.disk.szIo] } hszIo
        (fuel + count) (hpos.add (dvd_refl _)) (by omega) (by simp only; omega)
      refine ⟨device', ?_, hfirst.trans hanswers rfl⟩
      rw [show fuel + (count + 1) = fuel + count + 1 by omega, Device.readLoop, if_neg hne]
      simp only [hread, hnext, Option.bind_eq_bind, Option.bind_some, hrest]
      rw [Nat.mul_succ, Nat.add_comm (device.disk.szIo * count), slice_add]
      rfl

/-- The write loop replaces every range of whole IO units on the device. -/
theorem Device.writeLoop_answers (hszIo : 0 < device.disk.szIo) {fuel count : ℕ}
    {cur : List Byte} (hpos : device.disk.szIo ∣ device.pos) (hfuel : count ≤ fuel)
    (hcur : cur.length = device.disk.szIo * count)
    (hbound : device.pos + device.disk.szIo * count ≤ device.disk.size) :
    ∃ device', device.writeLoop fuel cur (device.disk.szIo * count) = some device' ∧
      Answers device { device.disk with bytes := overwrite device.disk.bytes device.pos cur }
        device' := by
  induction count generalizing fuel device cur with
  | zero =>
      have hnil : cur = [] := List.eq_nil_of_length_eq_zero (by omega)
      refine ⟨device, ?_, ?_⟩
      · cases fuel <;> simp [Device.writeLoop]
      · rw [hnil, overwrite_nil]
        exact Answers.refl device
  | succ count ih =>
      obtain ⟨fuel, rfl⟩ := Nat.exists_eq_add_of_le' hfuel
      rw [Nat.mul_succ] at hcur hbound
      have hne : (device.disk.szIo * (count + 1 : ℕ) : Int) ≠ 0 := by positivity
      have hnext : (device.disk.szIo * (count + 1 : ℕ) : Int) - device.disk.szIo
          = device.disk.szIo * count := by
        push_cast
        ring
      have hunit : (cur.take device.disk.szIo).length = device.disk.szIo := by
        rw [List.length_take]
        omega
      obtain ⟨device₁, hwrite, hdisk, hnewPos, hfirst⟩ : ∃ device₁,
          device.write (cur.take device.disk.szIo) = some device₁ ∧
          device₁.disk = { device.disk with
            bytes := overwrite device.disk.bytes device.pos (cur.take device.disk.szIo) } ∧
          device₁.pos = device.pos + device.disk.szIo ∧ Answers device device₁.disk device₁ := by
        refine ⟨_, if_pos (by omega), rfl, by rw [hunit], rfl, [.write device.pos _], rfl, ?_⟩
        intro request hrequest
        rw [List.mem_singleton.mp hrequest]
        exact ⟨hpos, hunit⟩
      have hsame : device₁.disk.szIo = device.disk.szIo ∧ device₁.disk.size = device.disk.size := by
        rw [hdisk]
        exact ⟨rfl, rfl⟩
      obtain ⟨device', hrest, hanswers⟩ := @ih device₁ (by omega) (fuel + count)
        (cur.drop device.disk.szIo) (by rw [hsame.1, hnewPos]; exact hpos.add (dvd_refl _))
        (by omega) (by rw [List.length_drop, hsame.1]; omega)
        (by rw [hsame.1, hsame.2, hnewPos]; omega)
      have hsplit : { device₁.disk with
            bytes := overwrite device₁.disk.bytes device₁.pos (cur.drop device.disk.szIo) }
          = { device.disk with bytes := overwrite device.disk.bytes device.pos cur } := by
        rw [hdisk, hnewPos]
        simp only
        conv_rhs => rw [← List.take_append_drop device.disk.szIo cur, overwrite_append, hunit]
      rw [hsplit] at hanswers
      refine ⟨device', ?_, hfirst.trans hanswers hsame.1.symm⟩
      rw [hsame.1] at hrest
      rw [show fuel + (count + 1) = fuel + count + 1 by omega, Device.writeLoop, if_neg hne]
      simp only [hwrite, hnext, Option.bind_eq_bind, Option.bind_some, hrest]

end Loops

section Ranges

variable {device : Device} {offset size : Int}

/-- A read of a range whose blocks are on the device. -/
theorem Device.driverRead_answers (hszIo : 0 < device.disk.szIo) (hoffset : 0 ≤ offset)
    (hsize : 0 ≤ size) (hend : alignedEnd device.disk.szIo offset size ≤ device.disk.size) :
    ∃ device', device.driverRead offset size
        = some (slice device.disk.bytes offset.toNat size.toNat, device') ∧
      Answers device device.disk device' := by
  obtain ⟨lo, bias, count, hlo, hbias, hcount, -, hseek, hfit⟩ :=
    exists_aligned hszIo hoffset hsize
  simp only [alignedEnd, hlo, hbias, hcount] at hend
  have hdvd : device.disk.szIo ∣ lo :=
    Int.natCast_dvd_natCast.mp (Int.dvd_of_emod_eq_zero hseek)
  obtain ⟨device₁, hseek₁, hpos₁, hanswers₁⟩ := @Device.seek_answers device lo hdvd
  have hdisk₁ := hanswers₁.1
  obtain ⟨device₂, hloop, hanswers₂⟩ :=
    @Device.readLoop_answers device₁ (by rw [hdisk₁]; exact hszIo)
    (device.disk.szIo * count) count (by rw [hdisk₁, hpos₁]; exact hdvd)
    (Nat.le_mul_of_pos_left count hszIo) (by rw [hdisk₁, hpos₁]; zify; omega)
  rw [hdisk₁, hpos₁] at hloop
  rw [hdisk₁] at hanswers₂
  refine ⟨device₂, ?_, hanswers₁.trans hanswers₂ rfl⟩
  have hnat : ((device.disk.szIo * count : Int)).toNat = device.disk.szIo * count := by
    rw [← Int.natCast_mul, Int.toNat_natCast]
  have hcopy : 0 ≤ (bias : Int) ∧ 0 ≤ size ∧
      bias + size ≤ ((slice device.disk.bytes lo (device.disk.szIo * count)).length : Int) := by
    rw [length_slice]
    push_cast
    exact ⟨Int.natCast_nonneg bias, hsize, hfit⟩
  have hlength : device.disk.szIo * count = bias + (device.disk.szIo * count - bias) := by
    zify at hfit ⊢
    omega
  have hstart : lo + bias = offset.toNat := by omega
  simp only [Device.driverRead, hlo, hbias, hcount, hseek₁, hnat, hloop, Option.bind_eq_bind,
    Option.bind_some]
  rw [if_pos hcopy, Int.toNat_natCast, hlength, drop_slice, take_slice _ _ _ _ (by zify; omega),
    hstart]
  rfl

/-- The read that precedes a write: its range is aligned already. -/
theorem Device.driverRead_aligned (hszIo : 0 < device.disk.szIo) {lo count : ℕ}
    (hlo : blksSz device.disk.szIo ∣ (lo : Int))
    (hcount : blksSz device.disk.szIo ∣ (device.disk.szIo * count : Int))
    (hend : (lo : Int) + device.disk.szIo * count ≤ device.disk.size) :
    ∃ device', device.driverRead lo (device.disk.szIo * count)
        = some (slice device.disk.bytes lo (device.disk.szIo * count), device') ∧
      Answers device device.disk device' := by
  have hnat : ((device.disk.szIo * count : Int)).toNat = device.disk.szIo * count := by
    rw [← Int.natCast_mul, Int.toNat_natCast]
  have halignedEnd : alignedEnd device.disk.szIo lo (device.disk.szIo * count)
      ≤ device.disk.size := by
    rw [alignedEnd, roundDown_of_dvd hlo]
    simp only [sub_self, add_zero]
    rw [roundUp_of_dvd hcount]
    exact hend
  obtain ⟨device', hread, hanswers⟩ := Device.driverRead_answers hszIo (Int.natCast_nonneg lo)
    (by positivity) halignedEnd
  rw [Int.toNat_natCast, hnat] at hread
  exact ⟨device', hread, hanswers⟩

/-- A write of a range whose blocks are on the device. -/
theorem Device.driverWrite_answers (hszIo : 0 < device.disk.szIo) {inContent : List Byte}
    (hoffset : 0 ≤ offset) (hsize : 0 ≤ size) (hcontent : size ≤ inContent.length)
    (hend : alignedEnd device.disk.szIo offset size ≤ device.disk.size) :
    ∃ device', device.driverWrite offset inContent size = some device' ∧
      Answers device { device.disk with
        bytes := overwrite device.disk.bytes offset.toNat (inContent.take size.toNat) }
        device' := by
  obtain ⟨lo, bias, count, hlo, hbias, hcount, hdvd, hseek, hfit⟩ :=
    exists_aligned hszIo hoffset hsize
  simp only [alignedEnd, hlo, hbias, hcount] at hend
  have hupDvd : blksSz device.disk.szIo ∣ (device.disk.szIo * count : Int) := by
    rw [← hcount]
    exact (roundUp_spec (by omega) (by have := (blksSz_spec hszIo).2; omega)).1
  obtain ⟨device₁, hread, hanswers₁⟩ := Device.driverRead_aligned hszIo hdvd hupDvd hend
  have hdisk₁ := hanswers₁.1
  have hunit : device.disk.szIo ∣ lo :=
    Int.natCast_dvd_natCast.mp (Int.dvd_of_emod_eq_zero hseek)
  obtain ⟨device₂, hseek₂, hpos₂, hanswers₂⟩ :=
    @Device.seek_answers device₁ lo (by rw [hdisk₁]; exact hunit)
  have hdisk₂ : device₂.disk = device.disk := by rw [hanswers₂.1, hdisk₁]
  have htake : (inContent.take size.toNat).length = size.toNat := by
    rw [List.length_take]
    omega
  have hroom : bias + (inContent.take size.toNat).length ≤ device.disk.szIo * count := by
    rw [htake]
    zify
    omega
  have hpatch : (patch (slice device.disk.bytes lo (device.disk.szIo * count)) bias
      (inContent.take size.toNat)).length = device.disk.szIo * count := by
    rw [length_patch _ _ _ (by rw [length_slice]; exact hroom), length_slice]
  obtain ⟨device₃, hloop, hanswers₃⟩ := @Device.writeLoop_answers device₂
    (by rw [hdisk₂]; exact hszIo) (device.disk.szIo * count) count _
    (by rw [hdisk₂, hpos₂]; exact hunit) (Nat.le_mul_of_pos_left count hszIo)
    (by rw [hdisk₂]; exact hpatch) (by rw [hdisk₂, hpos₂]; zify; omega)
  have hstart : lo + bias = offset.toNat := by omega
  rw [hdisk₂, hpos₂, overwrite_patch_slice _ _ _ _ _ hroom, hstart] at hanswers₃
  rw [hdisk₂] at hloop
  refine ⟨device₃, ?_, (hanswers₁.trans hanswers₂ (by rw [hdisk₁])).trans hanswers₃
    (by rw [hdisk₁])⟩
  have hcopy : 0 ≤ (bias : Int) ∧ 0 ≤ size ∧
      bias + size ≤ ((slice device.disk.bytes lo (device.disk.szIo * count)).length : Int) ∧
      size ≤ inContent.length := by
    rw [length_slice]
    push_cast
    exact ⟨Int.natCast_nonneg bias, hsize, hfit, hcontent⟩
  have hnat : ((device.disk.szIo * count : Int)).toNat = device.disk.szIo * count := by
    rw [← Int.natCast_mul, Int.toNat_natCast]
  simp only [Device.driverWrite, hlo, hbias, hcount, hread, hnat, Option.bind_eq_bind,
    Option.bind_some, Int.toNat_natCast]
  rw [if_pos hcopy, hseek₂]
  exact hloop

/-- Keeping the record changes neither what is read nor what is on the device. -/
theorem Device.driverRead_disk (hszIo : 0 < device.disk.szIo) (hoffset : 0 ≤ offset)
    (hsize : 0 ≤ size) (hend : alignedEnd device.disk.szIo offset size ≤ device.disk.size) :
    (device.driverRead offset size).map Prod.fst = Newfs.driverRead device.disk offset size := by
  obtain ⟨device', hread, -⟩ := Device.driverRead_answers hszIo hoffset hsize hend
  rw [hread, driverRead_eq hszIo hoffset hsize hend]
  rfl

theorem Device.driverWrite_disk (hszIo : 0 < device.disk.szIo) {inContent : List Byte}
    (hoffset : 0 ≤ offset) (hsize : 0 ≤ size) (hcontent : size ≤ inContent.length)
    (hend : alignedEnd device.disk.szIo offset size ≤ device.disk.size) :
    (device.driverWrite offset inContent size).map Device.disk
      = Newfs.driverWrite device.disk offset inContent size := by
  obtain ⟨device', hwrite, hdisk, -⟩ :=
    Device.driverWrite_answers hszIo hoffset hsize hcontent hend
  rw [hwrite, driverWrite_eq hszIo hoffset hsize hcontent hend, Option.map_some, hdisk]

/-- Device access is byte-exact.  A read returns the bytes asked for and changes nothing,
a write replaces exactly the bytes it is given, and neither makes a request that is not
of one IO unit at a multiple of it. -/
theorem driver_access_byte_exact (device : Device) (offset size : Int)
    (hszIo : 0 < device.disk.szIo) (hoffset : 0 ≤ offset) (hsize : 0 ≤ size)
    (hend : alignedEnd device.disk.szIo offset size ≤ device.disk.size) :
    (∃ device', device.driverRead offset size
        = some (slice device.disk.bytes offset.toNat size.toNat, device') ∧
      device'.disk = device.disk ∧
      ∃ requests, device'.requests = device.requests ++ requests ∧
        ∀ request ∈ requests, request.Aligned device.disk.szIo) ∧
    (∀ inContent : List Byte, (inContent.length : Int) = size →
      ∃ device', device.driverWrite offset inContent size = some device' ∧
        device'.disk.size = device.disk.size ∧ device'.disk.szIo = device.disk.szIo ∧
        slice device'.disk.bytes offset.toNat size.toNat = inContent ∧
        (∀ addr : ℕ, (addr : Int) < offset ∨ offset + size ≤ addr →
          device'.disk.bytes addr = device.disk.bytes addr) ∧
        ∃ requests, device'.requests = device.requests ++ requests ∧
          ∀ request ∈ requests, request.Aligned device.disk.szIo) := by
  refine ⟨?_, ?_⟩
  · obtain ⟨device', hread, hdisk, requests, hrequests, haligned⟩ :=
      Device.driverRead_answers hszIo hoffset hsize hend
    exact ⟨device', hread, hdisk, requests, hrequests, haligned⟩
  · intro inContent hlength
    obtain ⟨device', hwrite, hdisk, requests, hrequests, haligned⟩ :=
      @Device.driverWrite_answers device offset size hszIo inContent hoffset hsize
        (by omega) hend
    have hall : inContent.take size.toNat = inContent := List.take_of_length_le (by omega)
    have hcells : slice (overwrite device.disk.bytes offset.toNat inContent) offset.toNat
        size.toNat = inContent := by
      rw [← hlength, Int.toNat_natCast]
      exact slice_overwrite_self _ _ _
    rw [hall] at hdisk
    refine ⟨device', hwrite, by rw [hdisk], by rw [hdisk], by rw [hdisk]; exact hcells, ?_,
      requests, hrequests, haligned⟩
    intro addr houtside
    rw [hdisk]
    rcases houtside with hbefore | hafter
    · exact overwrite_of_lt _ _ _ (by omega)
    · exact overwrite_of_ge _ _ _ (by omega)

/-- A device whose IO unit does not divide the block. -/
def oddDevice : Device where
  disk := { bytes := BitVec.ofNat 8, size := 4000, szIo := 1000 }
  pos := 0
  requests := []

/-- A range that crosses a block of it is read, and written with other bytes. -/
theorem driver_access_byte_exact_odd_unit :
    (∃ device', oddDevice.driverRead 1990 20
        = some ((List.range' 1990 20).map (BitVec.ofNat 8), device')) ∧
      ∃ device', oddDevice.driverWrite 1990 (List.replicate 20 7) 20 = some device' ∧
        slice device'.disk.bytes 1990 20 = List.replicate 20 7 ∧
        device'.disk.bytes 1989 = 1989 ∧ device'.disk.bytes 2010 = 2010 := by
  obtain ⟨⟨read, hread, -⟩, hwrite⟩ := driver_access_byte_exact oddDevice 1990 20 (by decide)
    (by decide) (by decide) (by decide)
  obtain ⟨written, hwrite, -, -, hinside, houtside, -⟩ := hwrite (List.replicate 20 7) rfl
  exact ⟨⟨read, hread⟩, written, hwrite, hinside, houtside 1989 (Or.inl (by decide)),
    houtside 2010 (Or.inr (by decide))⟩

end Ranges

end OperateSystem.Newfs

import Mathlib.Algebra.Group.Nat.Defs
import Mathlib.Algebra.Group.Int.Defs
import Mathlib.Tactic.Common
import OperateSystem.Core.ByteStore

/-!
# The on-disk layout of newfs

The constants and records of `types.h`.  A C `int` is an integer; it is stored
as four little-endian bytes, so what is read back is the value modulo `2 ^ 32`
as a signed number.  Fields of the disk records that no function assigns, and
padding, hold whatever the stack held: their bytes are taken from a `Junk`
function, by the disk address they end up at.
-/

namespace OperateSystem.Newfs

open OperateSystem.ByteStore

abbrev Byte := BitVec 8

/-- The contents of uninitialised memory. -/
abbrev Junk := ℕ → Byte

def magicNum : Int := 0x20011005
def maxFileName : ℕ := 128
def mapInodeBlocks : Int := 1
def mapDataBlocks : Int := 1
def dataPerFile : Int := 8
def blockSize : Int := 1024
def superOfs : Int := 0
def mapInodeOfs : Int := 1024
def mapDataOfs : Int := 2048
def inodeOfs : Int := 3072
def inodeSize : Int := 32
def inodeNum : Int := 3968
def dataOfs : Int := 130048
def dataSize : Int := 1024
def dataNum : Int := 3968

/-- `sizeof(struct newfs_dentry)`, `sizeof(struct newfs_dentry_d)`,
`sizeof(struct newfs_inode_d)` and `sizeof(struct newfs_super_d)`. -/
def sizeofDentry : Int := 176
def sizeofDentryD : Int := 140
def sizeofInodeD : Int := 32
def sizeofSuperD : Int := 52

/-- `NEWFS_ROUND_DOWN` on an argument that is a single operand; C division
truncates. -/
def roundDown (value round : Int) : Int :=
  if value.tmod round = 0 then value else value.tdiv round * round

/-- `NEWFS_ROUND_UP` on an argument that is a single operand. -/
def roundUp (value round : Int) : Int :=
  if value.tmod round = 0 then value else (value.tdiv round + 1) * round

/-- `NEWFS_BLKS_SZ()`. -/
def blksSz (szIo : Int) : Int := roundUp blockSize szIo

/-- `NEWFS_INO_OFS(ino)`. -/
def inoOfs (ino : Int) : Int := inodeOfs + ino * inodeSize

/-- `NEWFS_DA_OFS(data)`. -/
def daOfs (data : Int) : Int := dataOfs + data * dataPerFile * dataSize

/-- The value a C `int` holds after `x` has been stored in it. -/
def toInt32 (x : Int) : Int := x.bmod (2 ^ 32)

/-- The bytes of a C `int`. -/
def encodeInt (x : Int) : List Byte :=
  let n := (x % 2 ^ 32).toNat
  [BitVec.ofNat 8 n, BitVec.ofNat 8 (n / 2 ^ 8), BitVec.ofNat 8 (n / 2 ^ 16),
    BitVec.ofNat 8 (n / 2 ^ 24)]

/-- The C `int` at the start of a buffer. -/
def decodeInt : List Byte → Int
  | b₀ :: b₁ :: b₂ :: b₃ :: _ =>
      toInt32 (b₀.toNat + 2 ^ 8 * b₁.toNat + 2 ^ 16 * b₂.toNat + 2 ^ 24 * b₃.toNat : ℕ)
  | _ => 0

/-- `NEWFS_FILE_TYPE`; a disk may hold a number that is none of the three. -/
inductive FileType
  | file
  | dir
  | symLink
  | other (raw : Int)
  deriving DecidableEq

def FileType.toInt : FileType → Int
  | file => 0
  | dir => 1
  | symLink => 2
  | other raw => raw

def FileType.ofInt (raw : Int) : FileType :=
  if raw = 0 then file else if raw = 1 then dir else if raw = 2 then symLink else other raw

/-- `struct newfs_inode_d`; `link` and `data` are never assigned nor read. -/
structure InodeD where
  ino : Int
  size : Int
  ftype : FileType
  dirCnt : Int

/-- `struct newfs_dentry_d`; `valid` is never assigned nor read. -/
structure DentryD where
  fname : List Byte
  ftype : FileType
  ino : Int

/-- `struct newfs_super_d`; `sz_disk`, `sz_io`, `driver_fd`, `max_ino` and
`max_data` are never assigned nor read. -/
structure SuperD where
  magicNum : Int
  mapInodeBlks : Int
  mapInodeOffset : Int
  mapDataBlks : Int
  mapDataOffset : Int
  inodeOffset : Int
  dataOffset : Int
  szUsage : Int

def InodeD.encode (inodeD : InodeD) (junk : Junk) (ofs : ℕ) : List Byte :=
  encodeInt inodeD.ino ++ encodeInt inodeD.size ++ slice junk (ofs + 8) 4 ++
    encodeInt inodeD.ftype.toInt ++ encodeInt inodeD.dirCnt ++ slice junk (ofs + 20) 12

def InodeD.decode (bytes : List Byte) : InodeD where
  ino := decodeInt bytes
  size := decodeInt (bytes.drop 4)
  ftype := .ofInt (decodeInt (bytes.drop 12))
  dirCnt := decodeInt (bytes.drop 16)

def DentryD.encode (dentryD : DentryD) (junk : Junk) (ofs : ℕ) : List Byte :=
  dentryD.fname ++ encodeInt dentryD.ftype.toInt ++ encodeInt dentryD.ino ++
    slice junk (ofs + 136) 4

def DentryD.decode (bytes : List Byte) : DentryD where
  fname := bytes.take maxFileName
  ftype := .ofInt (decodeInt (bytes.drop 128))
  ino := decodeInt (bytes.drop 132)

def SuperD.encode (superD : SuperD) (junk : Junk) : List Byte :=
  encodeInt superD.magicNum ++ slice junk 4 20 ++ encodeInt superD.mapInodeBlks ++
    encodeInt superD.mapInodeOffset ++ encodeInt superD.mapDataBlks ++
    encodeInt superD.mapDataOffset ++ encodeInt superD.inodeOffset ++
    encodeInt superD.dataOffset ++ encodeInt superD.szUsage

def SuperD.decode (bytes : List Byte) : SuperD where
  magicNum := decodeInt bytes
  mapInodeBlks := decodeInt (bytes.drop 24)
  mapInodeOffset := decodeInt (bytes.drop 28)
  mapDataBlks := decodeInt (bytes.drop 32)
  mapDataOffset := decodeInt (bytes.drop 36)
  inodeOffset := decodeInt (bytes.drop 40)
  dataOffset := decodeInt (bytes.drop 44)
  szUsage := decodeInt (bytes.drop 48)

/-- The C string at the start of a buffer, up to its NUL or the buffer's end. -/
def cstr (bytes : List Byte) : List Byte := bytes.takeWhile (· ≠ 0)

section Rounding

variable {value round : Int}

/-- Rounding down gives the last multiple that is not above the value. -/
theorem roundDown_spec (hvalue : 0 ≤ value) (hround : 0 < round) :
    round ∣ roundDown value round ∧ 0 ≤ roundDown value round ∧
      roundDown value round ≤ value ∧ value < roundDown value round + round := by
  have hdiv := Int.ediv_mul_add_emod value round
  have hnonneg := Int.emod_nonneg value (Int.ne_of_gt hround)
  have hlt := Int.emod_lt_of_pos value hround
  have heq : roundDown value round = value / round * round := by
    rw [roundDown, Int.tmod_eq_emod_of_nonneg hvalue, Int.tdiv_eq_ediv_of_nonneg hvalue]
    split
    · omega
    · rfl
  have hpos : 0 ≤ value / round * round :=
    Int.mul_nonneg (Int.ediv_nonneg hvalue (Int.le_of_lt hround)) (Int.le_of_lt hround)
  rw [heq]
  exact ⟨Int.dvd_mul_left _ _, hpos, by omega, by omega⟩

/-- Rounding up gives the first multiple that is not below the value. -/
theorem roundUp_spec (hvalue : 0 ≤ value) (hround : 0 < round) :
    round ∣ roundUp value round ∧ value ≤ roundUp value round ∧
      roundUp value round < value + round := by
  have hdiv := Int.ediv_mul_add_emod value round
  have hnonneg := Int.emod_nonneg value (Int.ne_of_gt hround)
  have hlt := Int.emod_lt_of_pos value hround
  rw [roundUp, Int.tmod_eq_emod_of_nonneg hvalue, Int.tdiv_eq_ediv_of_nonneg hvalue]
  split
  · rename_i hzero
    exact ⟨Int.dvd_of_emod_eq_zero hzero, Int.le_refl _, by omega⟩
  · have hexpand : (value / round + 1) * round = value / round * round + round := by
      rw [Int.add_mul, Int.one_mul]
    exact ⟨Int.dvd_mul_left _ _, by omega, by omega⟩

theorem roundDown_of_dvd (hdvd : round ∣ value) : roundDown value round = value := by
  rw [roundDown, if_pos (Int.tmod_eq_zero_of_dvd hdvd)]

theorem roundUp_of_dvd (hdvd : round ∣ value) : roundUp value round = value := by
  rw [roundUp, if_pos (Int.tmod_eq_zero_of_dvd hdvd)]

/-- An IO size that divides the logical block size leaves it as it is. -/
theorem blksSz_of_dvd {szIo : ℕ} (hdvd : szIo ∣ 1024) : blksSz szIo = 1024 := by
  have hzero : blockSize.tmod szIo = 0 := by
    rw [Int.tmod_eq_emod_of_nonneg (by decide)]
    exact Int.emod_eq_zero_of_dvd (Int.natCast_dvd_natCast.mpr hdvd)
  rw [blksSz, roundUp, if_pos hzero]
  rfl

theorem blksSz_spec {szIo : ℕ} (hszIo : 0 < szIo) :
    (szIo : Int) ∣ blksSz szIo ∧ 1024 ≤ blksSz szIo := by
  have hspec := roundUp_spec (show (0 : Int) ≤ blockSize by decide)
    (show (0 : Int) < szIo by omega)
  exact ⟨hspec.1, hspec.2.1⟩

end Rounding

section Codec

theorem toInt32_of_range {x : Int} (hlo : -2 ^ 31 ≤ x) (hhi : x < 2 ^ 31) : toInt32 x = x := by
  simp only [toInt32, Int.bmod]
  omega

theorem toInt32_zero : toInt32 0 = 0 := toInt32_of_range (by decide) (by decide)

@[simp]
theorem length_encodeInt (x : Int) : (encodeInt x).length = 4 := rfl

/-- An `int` read back is the one stored, as a signed 32-bit number. -/
@[simp]
theorem decodeInt_encodeInt_append (x : Int) (rest : List Byte) :
    decodeInt (encodeInt x ++ rest) = toInt32 x := by
  simp only [encodeInt, List.cons_append, List.nil_append, decodeInt, BitVec.toNat_ofNat,
    toInt32, Int.bmod]
  omega

@[simp]
theorem decodeInt_encodeInt (x : Int) : decodeInt (encodeInt x) = toInt32 x := by
  simpa using decodeInt_encodeInt_append x []

theorem drop_encodeInt (x : Int) {n : ℕ} (hn : 4 ≤ n) : (encodeInt x).drop n = [] :=
  List.drop_eq_nil_of_le hn

theorem decodeInt_range (bytes : List Byte) :
    -2 ^ 31 ≤ decodeInt bytes ∧ decodeInt bytes < 2 ^ 31 := by
  unfold decodeInt
  split
  · simp only [toInt32, Int.bmod]
    omega
  · decide

@[simp]
theorem InodeD.length_encode (inodeD : InodeD) (junk : Junk) (ofs : ℕ) :
    (inodeD.encode junk ofs).length = 32 := by
  simp [InodeD.encode]

@[simp]
theorem SuperD.length_encode (superD : SuperD) (junk : Junk) :
    (superD.encode junk).length = 52 := by
  simp [SuperD.encode]

theorem DentryD.length_encode (dentryD : DentryD) (junk : Junk) (ofs : ℕ)
    (hname : dentryD.fname.length = maxFileName) : (dentryD.encode junk ofs).length = 140 := by
  simp [DentryD.encode, hname, maxFileName]

theorem InodeD.decode_encode (inodeD : InodeD) (junk : Junk) (ofs : ℕ) :
    InodeD.decode (inodeD.encode junk ofs)
      = ⟨toInt32 inodeD.ino, toInt32 inodeD.size, .ofInt (toInt32 inodeD.ftype.toInt),
          toInt32 inodeD.dirCnt⟩ := by
  simp [InodeD.encode, InodeD.decode, List.drop_append, List.drop_eq_nil_of_le,
    drop_encodeInt]

theorem DentryD.decode_encode (dentryD : DentryD) (junk : Junk) (ofs : ℕ)
    (hname : dentryD.fname.length = maxFileName) :
    DentryD.decode (dentryD.encode junk ofs)
      = ⟨dentryD.fname, .ofInt (toInt32 dentryD.ftype.toInt), toInt32 dentryD.ino⟩ := by
  have hlen : dentryD.fname.length = 128 := hname
  simp [DentryD.encode, DentryD.decode, List.drop_append, List.drop_eq_nil_of_le,
    drop_encodeInt, hlen, maxFileName]

theorem SuperD.decode_encode (superD : SuperD) (junk : Junk) :
    SuperD.decode (superD.encode junk)
      = ⟨toInt32 superD.magicNum, toInt32 superD.mapInodeBlks, toInt32 superD.mapInodeOffset,
          toInt32 superD.mapDataBlks, toInt32 superD.mapDataOffset,
          toInt32 superD.inodeOffset, toInt32 superD.dataOffset, toInt32 superD.szUsage⟩ := by
  simp [SuperD.encode, SuperD.decode, List.drop_append, List.drop_eq_nil_of_le,
    drop_encodeInt]

end Codec

end OperateSystem.Newfs

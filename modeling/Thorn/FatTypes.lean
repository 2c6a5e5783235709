import Thorn.Library.Bytes
import Thorn.Paths

set_option autoImplicit false

/-!
# ThornFAT on-disk records

The superblock and directory entries as they lie on the disk (packed
little-endian fields), the block numbers of the file allocation table, and the
conversions between the machine's integer types.
-/
namespace Thorn.FatTypes
open ByteStore Paths

def THORNFAT_PATH_MAX : ℕ := 255
def MAGIC : ℕ := 0xfa91283e
def MINBLOCKS : ℕ := 3
def UNUSABLE : ℤ := -1
def FINAL : ℤ := -2

def ENOENT : ℤ := 2
def EEXIST : ℤ := 17
def ENOTDIR : ℤ := 20
def EISDIR : ℤ := 21
def EINVAL : ℤ := 22
def ENOSPC : ℤ := 28
def ENAMETOOLONG : ℤ := 36
def ENOTEMPTY : ℤ := 39

def toSize (x : ℤ) : ℕ := (x % (2 ^ 64 : ℕ)).toNat

def toInt32 (x : ℤ) : ℤ :=
  let word := (x % (2 ^ 32 : ℕ)).toNat
  if word < 2 ^ 31 then word else word - (2 ^ 32 : ℕ)

/-- A product of a `block_t` and a `uint32_t` is a `uint32_t`. -/
def mul32 (block : ℤ) (size : ℕ) : ℕ := (block * size % (2 ^ 32 : ℕ)).toNat

def updiv (n d : ℕ) : ℕ := n / d + if n % d ≠ 0 then 1 else 0

def blockBytes (block : ℤ) : List UInt8 := leBytes 4 (block % (2 ^ 32 : ℕ)).toNat
def blockOfBytes (bytes : List UInt8) : ℤ := toInt32 (leNat bytes)

structure Superblock where
  magic : ℕ
  blockCount : ℕ
  fatBlocks : ℕ
  blockSize : ℕ
  startBlock : ℤ
deriving DecidableEq

def sizeofSuperblock : ℕ := 24

def Superblock.encode (s : Superblock) : List UInt8 :=
  leBytes 4 s.magic ++ leBytes 8 s.blockCount ++ leBytes 4 s.fatBlocks ++ leBytes 4 s.blockSize ++
    blockBytes s.startBlock

def field (bytes : List UInt8) (o n : ℕ) : ℕ := leNat ((bytes.drop o).take n)

def Superblock.decode (bytes : List UInt8) : Superblock where
  magic := field bytes 0 4
  blockCount := field bytes 4 8
  fatBlocks := field bytes 12 4
  blockSize := field bytes 16 4
  startBlock := toInt32 (field bytes 20 4)

/-- `char str[THORNFAT_PATH_MAX + 1]`. -/
structure Filename where
  str : List UInt8
  size : str.length = THORNFAT_PATH_MAX + 1
deriving DecidableEq

def Filename.ofBytes (s : List UInt8) : Filename where
  str := (s ++ List.replicate (THORNFAT_PATH_MAX + 1) 0).take (THORNFAT_PATH_MAX + 1)
  size := by simp

def Filename.toStr (f : Filename) : Str := f.str.takeWhile (· ≠ 0)

structure Times where
  created : BitVec 64
  modified : BitVec 64
  accessed : BitVec 64
deriving DecidableEq

def Times.zero : Times := ⟨0, 0, 0⟩

inductive FileType
  | File
  | Directory
deriving DecidableEq

def FileType.code : FileType → BitVec 32
  | .File => 0
  | .Directory => 1

theorem toInt32_eq_bmod (x : ℤ) : toInt32 x = x.bmod (2 ^ 32) := by
  simp only [toInt32, Int.bmod]
  split_ifs <;> omega

/-- The padding that fills a `DirEntry` up to 320 bytes carries no data; every
entry written has zeros there. The type is kept as the `int` the disk holds. -/
structure DirEntry where
  name : Filename
  times : Times
  length : BitVec 64
  startBlock : BitVec 32
  type : BitVec 32
  modes : BitVec 32
deriving DecidableEq

def sizeofDirEntry : ℕ := 320

namespace DirEntry

def empty : DirEntry := ⟨.ofBytes [], .zero, 0, -1, FileType.File.code, 0⟩
def len (e : DirEntry) : ℕ := e.length.toNat
def start (e : DirEntry) : ℤ := e.startBlock.toInt
def isFile (e : DirEntry) : Bool := e.type = FileType.File.code
def isDirectory (e : DirEntry) : Bool := e.type = FileType.Directory.code

def encode (e : DirEntry) : List UInt8 :=
  e.name.str ++ (leBytes 8 e.times.created.toNat ++ (leBytes 8 e.times.modified.toNat ++
    (leBytes 8 e.times.accessed.toNat ++ (leBytes 8 e.length.toNat ++
      (leBytes 4 e.startBlock.toNat ++ (leBytes 4 e.type.toNat ++ (leBytes 4 e.modes.toNat ++
        List.replicate 20 0)))))))

def decode (bytes : List UInt8) : DirEntry where
  name := .ofBytes (bytes.take 256)
  times := ⟨BitVec.ofNat 64 (field bytes 256 8), BitVec.ofNat 64 (field bytes 264 8),
    BitVec.ofNat 64 (field bytes 272 8)⟩
  length := BitVec.ofNat 64 (field bytes 280 8)
  startBlock := BitVec.ofNat 32 (field bytes 288 4)
  type := BitVec.ofNat 32 (field bytes 292 4)
  modes := BitVec.ofNat 32 (field bytes 296 4)

def setLength (e : DirEntry) (n : ℕ) : DirEntry := { e with length := BitVec.ofNat 64 n }
def setStart (e : DirEntry) (b : ℤ) : DirEntry := { e with startBlock := BitVec.ofInt 32 b }
def setName (e : DirEntry) (s : Str) : DirEntry := { e with name := .ofBytes s }

@[simp] theorem setLength_len (e : DirEntry) (n : ℕ) : (e.setLength n).len = n % 2 ^ 64 := by
  simp [setLength, len]
@[simp] theorem setLength_start (e : DirEntry) (n : ℕ) : (e.setLength n).start = e.start := rfl
@[simp] theorem setLength_isFile (e : DirEntry) (n : ℕ) : (e.setLength n).isFile = e.isFile := rfl
@[simp] theorem setLength_isDirectory (e : DirEntry) (n : ℕ) :
    (e.setLength n).isDirectory = e.isDirectory := rfl
@[simp] theorem setLength_name (e : DirEntry) (n : ℕ) : (e.setLength n).name = e.name := rfl
@[simp] theorem setStart_len (e : DirEntry) (b : ℤ) : (e.setStart b).len = e.len := rfl
@[simp] theorem setStart_start (e : DirEntry) (b : ℤ) : (e.setStart b).start = toInt32 b := by
  simp [setStart, start, toInt32_eq_bmod]
@[simp] theorem setStart_isFile (e : DirEntry) (b : ℤ) : (e.setStart b).isFile = e.isFile := rfl
@[simp] theorem setStart_isDirectory (e : DirEntry) (b : ℤ) : (e.setStart b).isDirectory = e.isDirectory := rfl
@[simp] theorem setStart_name (e : DirEntry) (b : ℤ) : (e.setStart b).name = e.name := rfl
@[simp] theorem setName_len (e : DirEntry) (s : Str) : (e.setName s).len = e.len := rfl
@[simp] theorem setName_start (e : DirEntry) (s : Str) : (e.setName s).start = e.start := rfl
@[simp] theorem setName_isFile (e : DirEntry) (s : Str) : (e.setName s).isFile = e.isFile := rfl
@[simp] theorem setName_isDirectory (e : DirEntry) (s : Str) : (e.setName s).isDirectory = e.isDirectory := rfl
@[simp] theorem setName_name (e : DirEntry) (s : Str) : (e.setName s).name = .ofBytes s := rfl

end DirEntry

theorem toInt32_of_range (x : ℤ) (h₁ : -2 ^ 31 ≤ x) (h₂ : x < 2 ^ 31) : toInt32 x = x := by
  simp only [toInt32]
  split_ifs <;> omega

theorem toInt32_range (x : ℤ) : -2 ^ 31 ≤ toInt32 x ∧ toInt32 x < 2 ^ 31 := by
  simp only [toInt32]
  split_ifs <;> omega

@[simp] theorem toSize_natCast (n : ℕ) (h : n < 2 ^ 64) : toSize n = n := by
  unfold toSize
  omega

theorem mul32_natCast (b size : ℕ) (h : b * size < 2 ^ 32) : mul32 b size = b * size := by
  unfold mul32
  rw [Int.emod_eq_of_lt (by positivity) (by exact_mod_cast h)]
  exact_mod_cast Int.toNat_natCast (b * size)

@[simp] theorem blockBytes_length (b : ℤ) : (blockBytes b).length = 4 := leBytes_length _ _

theorem blockOfBytes_blockBytes (b : ℤ) : blockOfBytes (blockBytes b) = toInt32 b := by
  have h : ((leNat (blockBytes b) : ℕ) : ℤ) = b % (2 ^ 32 : ℕ) := by
    rw [blockBytes, leNat_leBytes]
    omega
  rw [blockOfBytes, toInt32, h, Int.emod_emod]
  rfl

theorem updiv_eq (n d : ℕ) (hd : 0 < d) : updiv n d = (n + (d - 1)) / d := by
  unfold updiv
  rw [Nat.add_div hd]
  have hlt := Nat.mod_lt n hd
  by_cases h0 : d = 1
  · subst h0
    simp [Nat.mod_one]
  · rw [Nat.div_eq_of_lt (show d - 1 < d by omega), Nat.mod_eq_of_lt (show d - 1 < d by omega)]
    split_ifs <;> omega

theorem updiv_le_iff (n d k : ℕ) (hd : 0 < d) : updiv n d ≤ k ↔ n ≤ k * d := by
  rw [updiv_eq n d hd, Nat.div_le_iff_le_mul_add_pred hd, Nat.mul_comm d k]
  omega

theorem updiv_zero (d : ℕ) : updiv 0 d = 0 := by simp [updiv]

theorem updiv_pos (n d : ℕ) (hd : 0 < d) (hn : 0 < n) : 0 < updiv n d := by
  by_contra h
  have := (updiv_le_iff n d 0 hd).mp (by omega)
  omega

theorem updiv_sub {n d : ℕ} (hd : 0 < d) (h : d < n) : updiv n d = updiv (n - d) d + 1 := by
  rw [updiv_eq _ _ hd, updiv_eq _ _ hd, ← Nat.add_div_right _ hd]
  congr 1
  omega

theorem Filename.ofBytes_str (f : Filename) : Filename.ofBytes f.str = f := by
  obtain ⟨str, size⟩ := f
  simp [Filename.ofBytes, ← size]

theorem Filename.ofBytes_toStr (s : Str) (hl : s.length ≤ THORNFAT_PATH_MAX) (h0 : (0 : UInt8) ∉ s) :
    (Filename.ofBytes s).toStr = s := by
  have hs : (Filename.ofBytes s).str =
      s ++ (0 :: List.replicate (THORNFAT_PATH_MAX - s.length) 0) := by
    simp only [Filename.ofBytes, ← List.replicate_succ]
    rw [List.take_append, List.take_of_length_le (by omega), List.take_replicate]
    congr 2
    omega
  rw [Filename.toStr, hs, List.takeWhile_append_of_pos]
  · simp
  · intro a ha
    simpa using fun h : a = 0 => h0 (h ▸ ha)

@[simp] theorem DirEntry.encode_length (e : DirEntry) : e.encode.length = 320 := by
  simp [encode, e.name.size, THORNFAT_PATH_MAX]

theorem field_append_right (as bs : List UInt8) (o n : ℕ) :
    field (as ++ bs) (as.length + o) n = field bs o n := by
  simp [field]

theorem field_append_self (as bs : List UInt8) (n : ℕ) (h : as.length = n) :
    field (as ++ bs) 0 n = leNat as := by
  simp [field, ← h]

theorem DirEntry.decode_encode (e : DirEntry) : decode e.encode = e := by
  have hn : e.name.str.length = 256 := e.name.size
  have skip : ∀ (as bs : List UInt8) (o n k : ℕ), as.length = k →
      field (as ++ bs) (k + o) n = field bs o n := by
    rintro as bs o n k rfl
    exact field_append_right as bs o n
  have take : ∀ (w v : ℕ) (bs : List UInt8), v < 256 ^ w → field (leBytes w v ++ bs) 0 w = v := by
    intro w v bs hv
    rw [field_append_self _ _ _ (leBytes_length w v), leNat_leBytes, Nat.mod_eq_of_lt hv]
  have h8 : ∀ v : BitVec 64, v.toNat < 256 ^ 8 := fun v => v.isLt
  have h4 : ∀ v : BitVec 32, v.toNat < 256 ^ 4 := fun v => v.isLt
  obtain ⟨name, ⟨created, modified, accessed⟩, length, startBlock, type, modes⟩ := e
  have fcreated : field (encode ⟨name, ⟨created, modified, accessed⟩, length, startBlock, type, modes⟩)
      256 8 = created.toNat := by
    rw [encode, skip _ _ 0 8 256 hn, take _ _ _ (h8 _)]
  have fmodified : field (encode ⟨name, ⟨created, modified, accessed⟩, length, startBlock, type, modes⟩)
      264 8 = modified.toNat := by
    rw [encode, skip _ _ 8 8 256 hn, skip _ _ 0 8 8 (by simp), take _ _ _ (h8 _)]
  have faccessed : field (encode ⟨name, ⟨created, modified, accessed⟩, length, startBlock, type, modes⟩)
      272 8 = accessed.toNat := by
    rw [encode, skip _ _ 16 8 256 hn, skip _ _ 8 8 8 (by simp), skip _ _ 0 8 8 (by simp),
      take _ _ _ (h8 _)]
  have flength : field (encode ⟨name, ⟨created, modified, accessed⟩, length, startBlock, type, modes⟩)
      280 8 = length.toNat := by
    rw [encode, skip _ _ 24 8 256 hn, skip _ _ 16 8 8 (by simp), skip _ _ 8 8 8 (by simp),
      skip _ _ 0 8 8 (by simp), take _ _ _ (h8 _)]
  have fstart : field (encode ⟨name, ⟨created, modified, accessed⟩, length, startBlock, type, modes⟩)
      288 4 = startBlock.toNat := by
    rw [encode, skip _ _ 32 4 256 hn, skip _ _ 24 4 8 (by simp), skip _ _ 16 4 8 (by simp),
      skip _ _ 8 4 8 (by simp), skip _ _ 0 4 8 (by simp), take _ _ _ (h4 _)]
  have ftype : field (encode ⟨name, ⟨created, modified, accessed⟩, length, startBlock, type, modes⟩)
      292 4 = type.toNat := by
    rw [encode, skip _ _ 36 4 256 hn, skip _ _ 28 4 8 (by simp), skip _ _ 20 4 8 (by simp),
      skip _ _ 12 4 8 (by simp), skip _ _ 4 4 8 (by simp), skip _ _ 0 4 4 (by simp),
      take _ _ _ (h4 _)]
  have fmodes : field (encode ⟨name, ⟨created, modified, accessed⟩, length, startBlock, type, modes⟩)
      296 4 = modes.toNat := by
    rw [encode, skip _ _ 40 4 256 hn, skip _ _ 32 4 8 (by simp), skip _ _ 24 4 8 (by simp),
      skip _ _ 16 4 8 (by simp), skip _ _ 8 4 8 (by simp), skip _ _ 4 4 4 (by simp),
      skip _ _ 0 4 4 (by simp), take _ _ _ (h4 _)]
  have fname : (encode ⟨name, ⟨created, modified, accessed⟩, length, startBlock, type, modes⟩).take 256 =
      name.str := by
    rw [encode, List.take_left' hn]
  simp only [decode, fcreated, fmodified, faccessed, flength, fstart, ftype, fmodes, fname,
    Filename.ofBytes_str, BitVec.ofNat_toNat, BitVec.setWidth_eq]

end Thorn.FatTypes

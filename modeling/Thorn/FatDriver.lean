import Thorn.FatTypes

set_option autoImplicit false

/-!
# The ThornFAT driver: table, entries, files and lookup

The driver's members over an abstract storage device, in the order of
`ThornFAT.cpp`. An action is `none` when the call never returns: it halts in
`DIE`, spins in `checkBlock`, divides by zero, or loops forever. Statements that
only feed the log are left out.
-/
namespace Thorn.FatDriver
open ByteStore Paths FatTypes

/-- `StorageDeviceBase`: every transfer returns a status. -/
class StorageDevice (σ : Type) where
  read : σ → (size offset : ℕ) → (ℤ × List UInt8) × σ
  write : σ → (buffer : List UInt8) → (offset : ℕ) → ℤ × σ
  clear : σ → (offset size : ℕ) → ℤ × σ

structure Record where
  size : ℕ
  offset : ℕ
deriving DecidableEq

structure Partition (σ : Type) where
  writeRecords : List Record
  parent : σ
  offset : ℕ
  length : ℕ

structure Driver (σ : Type) where
  partition : Partition σ
  superblock : Superblock
  blocksFree : ℤ
  root : DirEntry
  writeOffset : ℕ

abbrev Action (σ α : Type) := StateT (Driver σ) Option α

/-- A bound that no walk over distinct `block_t` values exceeds. -/
def walkFuel (s : Superblock) : ℕ := 2 ^ 32 + s.blockCount

theorem walkFuel_pos (s : Superblock) : 0 < walkFuel s := by
  unfold walkFuel
  omega

section
variable {σ : Type} [StorageDevice σ]

def hang {α : Type} : Action σ α := fun _ => none

def partitionRead (size byte_offset : ℕ) : Action σ (ℤ × List UInt8) := fun d =>
  let r := StorageDevice.read d.partition.parent size ((d.partition.offset + byte_offset) % 2 ^ 64)
  some (r.1, { d with partition := { d.partition with parent := r.2 } })

def partitionWrite (buffer : List UInt8) (byte_offset : ℕ) : Action σ ℤ := fun d =>
  let r := StorageDevice.write d.partition.parent buffer ((d.partition.offset + byte_offset) % 2 ^ 64)
  some (r.1, { d with partition := { d.partition with
    writeRecords := d.partition.writeRecords ++ [⟨buffer.length, byte_offset⟩], parent := r.2 } })

def partitionClear : Action σ ℤ := fun d =>
  let r := StorageDevice.clear d.partition.parent d.partition.offset d.partition.length
  some (r.1, { d with partition := { d.partition with parent := r.2 } })

def fatOffset (s : Superblock) (block_offset : ℤ) : ℕ :=
  (s.blockSize + toSize block_offset * 4) % 2 ^ 64

def readFAT (block_offset : ℤ) : Action σ ℤ := do
  let d ← get
  let (status, out) ← partitionRead 4 (fatOffset d.superblock block_offset)
  if status < 0 then pure status else pure (blockOfBytes out)

def writeFAT (block block_offset : ℤ) : Action σ ℤ := do
  let d ← get
  let status ← partitionWrite (blockBytes block) (fatOffset d.superblock block_offset)
  if status < 0 then pure status else pure 0

def addBlocksFree (n : ℤ) : Action σ Unit := modify fun d => { d with blocksFree := d.blocksFree + n }

def findFreeLoop : ℕ → ℕ → Action σ ℤ
  | 0, _ => pure UNUSABLE
  | n + 1, i => do
    if (← readFAT i) = 0 then pure (toInt32 i) else findFreeLoop n (i + 1)

def findFreeBlock : Action σ ℤ := do
  let d ← get
  findFreeLoop d.superblock.blockCount 0

def hasFreeLoop (count : ℕ) : ℕ → ℕ → ℕ → Action σ Bool
  | 0, _, _ => pure false
  | n + 1, i, scanned => do
    if (← readFAT i) = 0 then
      if count ≤ scanned + 1 then pure true else hasFreeLoop count n (i + 1) (scanned + 1)
    else hasFreeLoop count n (i + 1) scanned

def hasFree (count : ℕ) : Action σ Bool := do
  let d ← get
  hasFreeLoop count d.superblock.blockCount 0 0

def countFreeLoop : ℕ → Action σ Unit
  | 0 => pure ()
  | n + 1 => do
    if (← readFAT n) = 0 then addBlocksFree 1 else pure ()
    countFreeLoop n

def countFree : Action σ ℤ := do
  let d ← get
  if 0 ≤ d.blocksFree then pure d.blocksFree else do
    set { d with blocksFree := 0 }
    countFreeLoop (toInt32 (d.superblock.blockCount - 1) + 1).toNat
    let d ← get
    pure d.blocksFree

def forgetLoop : ℕ → ℤ → ℕ → Action σ ℕ
  | 0, _, _ => hang
  | fuel + 1, block, removed => do
    let next ← readFAT block
    if next = FINAL then do
      let _ ← writeFAT 0 block
      pure (removed + 1)
    else if 0 < next then do
      let _ ← writeFAT 0 block
      forgetLoop fuel next (removed + 1)
    else pure removed

def forget (start : ℤ) : Action σ ℕ := do
  let d ← get
  let removed ← forgetLoop (walkFuel d.superblock) start 0
  addBlocksFree removed
  pure removed

def chainLengthLoop : ℕ → ℤ → ℕ → Action σ ℕ
  | 0, _, _ => hang
  | fuel + 1, block, length => do
    let block ← readFAT block
    if block = -2 ∨ block = 0 ∨ block = -1 then pure (length + 1)
    else if block < -2 then hang
    else chainLengthLoop fuel block (length + 1)

def chainLength (start : ℤ) : Action σ ℕ := do
  let d ← get
  if (← readFAT start) = 0 then pure 0 else chainLengthLoop (walkFuel d.superblock) start 0

/-- The cached root follows the length of a root entry written from elsewhere;
no caller passes the cached root itself. -/
def refreshRoot (dir : DirEntry) : Action σ ℤ := do
  let d ← get
  if dir.start = d.superblock.startBlock then
    set { d with root := { d.root with length := dir.length } }
  pure 0

def writeEntry (dir : DirEntry) (offset : ℕ) : Action σ ℤ := do
  let status ← partitionWrite dir.encode offset
  if status ≠ 0 then pure (-status) else do
    let d ← get
    if offset = mul32 d.superblock.startBlock d.superblock.blockSize then do
      let status ← partitionWrite (dir.setName dotDotName).encode ((offset + sizeofDirEntry) % 2 ^ 64)
      if status < 0 then pure status else refreshRoot dir
    else refreshRoot dir

def getRoot : Action σ (DirEntry × ℕ) := do
  let d ← get
  let start := mul32 d.superblock.startBlock d.superblock.blockSize
  if d.root.start ≠ UNUSABLE then pure (d.root, start) else do
    let (_, bytes) ← partitionRead sizeofDirEntry start
    let root := DirEntry.decode bytes
    modify fun d => { d with root := root }
    pure (root, start)

def checkBlock (block : ℤ) : Action σ Unit := if block < 1 then hang else pure ()

def shrinkLoop : ℕ → ℤ → Action σ Unit
  | 0, _ => hang
  | fuel + 1, shrinkblock => do
    let nextblock ← readFAT shrinkblock
    let d ← get
    if nextblock = FINAL ∨ nextblock = 0 ∨ toInt32 d.superblock.fatBlocks ≤ nextblock then pure ()
    else do
      let _ ← writeFAT 0 shrinkblock
      addBlocksFree 1
      shrinkLoop fuel nextblock

def readFileLoop (file : DirEntry) (bs : ℕ) :
    ℕ → ℕ → ℤ → List UInt8 → Action σ (ℤ × List UInt8)
  | 0, _, _, _ => hang
  | fuel + 1, remaining, block, out => do
    if remaining = 0 then pure (0, out)
    else if remaining ≤ bs then do
      checkBlock block
      let (status, bytes) ← partitionRead remaining (mul32 block bs)
      if status < 0 then pure (status, out) else do
        let nextblock ← readFAT block
        if nextblock ≠ FINAL ∧ file.isDirectory then do
          let d ← get
          let _ ← writeFAT FINAL block
          shrinkLoop (walkFuel d.superblock) nextblock
        pure (0, out ++ bytes)
    else if (← readFAT block) = FINAL then pure (-EINVAL, out)
    else do
      checkBlock block
      let (status, bytes) ← partitionRead bs (mul32 block bs)
      if status < 0 then pure (status, out) else do
        let block ← readFAT block
        readFileLoop file bs fuel (remaining - bs) block (out ++ bytes)

def readFile (file : DirEntry) : Action σ (ℤ × List UInt8) := do
  let d ← get
  if file.len = 0 then pure (0, [])
  else readFileLoop file d.superblock.blockSize (file.len + walkFuel d.superblock) file.len file.start []

structure DirListing where
  status : ℤ
  entries : List (DirEntry × ℕ)
  first_index : Option ℕ

/-- The copying loop of `readDir`: entry `i` with its offset on the partition. -/
def readDirLoop (raw : List UInt8) (bs entries_per_block : ℕ) :
    ℕ → ℕ → ℤ → Action σ (List (DirEntry × ℕ))
  | 0, _, _ => pure []
  | n + 1, i, block => do
    let rem := i % entries_per_block
    let offset := (mul32 block bs + rem * sizeofDirEntry) % 2 ^ 64
    let entry := DirEntry.decode ((raw.drop (sizeofDirEntry * i)).take sizeofDirEntry)
    let block ← if rem = entries_per_block - 1 then readFAT block else pure block
    let rest ← readDirLoop raw bs entries_per_block n (i + 1) block
    pure ((entry, offset) :: rest)

/-- How many entries at the head of a directory's data are `.` and `..`; unset
when the data starts with neither. -/
def firstIndex (raw : List UInt8) : Option ℕ :=
  let first_name := (raw.take THORNFAT_PATH_MAX).takeWhile (· ≠ 0)
  if first_name = dotName then some 2 else if first_name = dotDotName then some 1 else none

def readDir (dir : DirEntry) : Action σ DirListing := do
  let d ← get
  if dir.len = 0 ∨ ¬ dir.isDirectory then pure ⟨-ENOTDIR, [], none⟩ else do
    let count := dir.len / sizeofDirEntry
    let (status, raw) ← readFile dir
    if status < 0 then pure ⟨status, [], none⟩ else do
      let entries_per_block := d.superblock.blockSize / sizeofDirEntry
      if count ≠ 0 ∧ entries_per_block = 0 then hang else do
        let entries ← readDirLoop raw d.superblock.blockSize entries_per_block count 0 dir.start
        pure ⟨0, entries, firstIndex raw⟩

def isFree (entry : DirEntry) : Action σ Bool := do
  if entry.start = 0 then pure true else do
    let next ← readFAT entry.start
    pure (next = 0)

def hasStuff (entry : DirEntry) : Action σ Bool := do
  if entry.isFile then do
    let free ← isFree entry
    pure (!free)
  else if entry.isDirectory then pure (entry.name.toStr ≠ dotDotName ∧ 0 < entry.len)
  else pure false

structure FindResult where
  status : ℤ
  entry : DirEntry
  offset : ℕ
  last_name : Str

/-- A failed search leaves the caller's fresh variables as they are. -/
def FindResult.fail (status : ℤ) : FindResult := ⟨status, .empty, 0, []⟩

def findEntry (search : Str) : List (DirEntry × ℕ) → Action σ (Option (DirEntry × ℕ))
  | [] => pure none
  | (entry, offset) :: rest => do
    if search = entry.name.toStr then do
      if ← isFree entry then findEntry search rest else pure (some (entry, offset))
    else findEntry search rest

def findLoop (get_parent : Bool) : ℕ → Str → DirEntry → ℕ → Action σ FindResult
  | 0, _, _, _ => hang
  | fuel + 1, remaining, dir, dir_offset =>
    match pathFirst remaining with
    | (none, _) =>
      if get_parent then pure ⟨0, dir, dir_offset, []⟩ else pure (.fail (-ENOENT))
    | (some search, newpath) =>
      if newpath = [] ∧ get_parent then pure ⟨0, dir, dir_offset, search⟩ else do
        let listing ← readDir dir
        if listing.status < 0 then pure (.fail listing.status) else do
          match ← findEntry search listing.entries with
          | none => pure (.fail (-ENOENT))
          | some (entry, offset) =>
            if newpath = [] then pure ⟨0, entry, offset, []⟩
            else if entry.isFile then pure (.fail (-ENOTDIR))
            else findLoop get_parent fuel newpath entry offset

def find (path : Str) (get_parent : Bool) : Action σ FindResult := do
  let (root, start) ← getRoot
  if path = [slash] ∨ path = [] then pure ⟨0, root, start, []⟩
  else findLoop get_parent (path.length + 1) path root start

end

/-- The flat byte array behind a partition: transfers succeed and move exactly
the bytes asked for. -/
structure FlatDevice where
  bytes : Store

instance : StorageDevice FlatDevice where
  read d size offset := ((0, slice d.bytes offset size), d)
  write d buffer offset := (0, ⟨patch d.bytes offset buffer⟩)
  clear d offset size := (0, ⟨fun i => if offset ≤ i ∧ i < offset + size then 0 else d.bytes i⟩)

end Thorn.FatDriver

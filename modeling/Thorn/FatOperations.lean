import Thorn.FatDriver

set_option autoImplicit false

/-!
# The ThornFAT driver: operations

Allocation of new entries, resizing, formatting and the `Driver` interface,
translated member by member. `off_t` offsets of entries are kept as their
64-bit patterns.
-/
namespace Thorn.FatOperations
open ByteStore Paths FatTypes FatDriver

variable {σ : Type} [StorageDevice σ]

structure NewFileResult where
  status : ℤ
  entry : DirEntry
  offset : ℕ
  parent : DirEntry
  parent_offset : ℕ

def NewFileResult.fail (status : ℤ) : NewFileResult := ⟨status, .empty, 0, .empty, 0⟩

/-- The last loop of `newFile`: further blocks for a file longer than one. -/
def extendLoop (bs : ℕ) (old_free_block : ℤ) : ℕ → ℕ → ℤ → Action σ ℤ
  | 0, _, _ => hang
  | fuel + 1, size_left, block => do
    if bs < size_left then do
      let another_free_block ← findFreeBlock
      if another_free_block = UNUSABLE then do
        let _ ← writeFAT FINAL block
        modify fun d => { d with blocksFree := -1 }
        let _ ← writeFAT 0 old_free_block
        let _ ← countFree
        pure (-ENOSPC)
      else do
        addBlocksFree (-1)
        let _ ← writeFAT another_free_block block
        extendLoop bs old_free_block fuel (size_left - bs) another_free_block
    else do
      let _ ← writeFAT FINAL block
      pure 0

def newFileFinish (parent : FindResult) (newfile : DirEntry) (offset length : ℕ)
    (old_free_block : ℤ) (noalloc increase_parent_length : Bool) : Action σ NewFileResult := do
  let d ← get
  let parent_dir := if increase_parent_length then
    parent.entry.setLength (parent.entry.len + sizeofDirEntry) else parent.entry
  let status ← if increase_parent_length then writeEntry parent_dir parent.offset else pure 0
  if status < 0 then pure (.fail status) else do
    let status ← if noalloc then pure 0
      else extendLoop d.superblock.blockSize old_free_block (length + 1) length newfile.start
    if status < 0 then pure (.fail status)
    else pure ⟨if parent.status = 1 then 1 else 0, newfile, offset, parent_dir, parent.offset⟩

def findFreed : List (DirEntry × ℕ) → ℕ → Action σ (Option (ℕ × ℕ))
  | [], _ => pure none
  | (entry, offset) :: rest, i => do
    if ← isFree entry then pure (some (offset, i)) else findFreed rest (i + 1)

def lastBlockLoop (bs : ℕ) : ℕ → ℕ → ℤ → Action σ (ℤ × ℕ)
  | 0, _, _ => hang
  | fuel + 1, remaining, block => do
    if bs < remaining then do
      let block ← readFAT block
      lastBlockLoop bs fuel (remaining - bs) block
    else pure (block, remaining)

/-- Scenario three: the parent is given one more block, which holds the entry. -/
def newFileExpand (parent : FindResult) (newfile : DirEntry) (length : ℕ) (block old_free_block : ℤ)
    (noalloc : Bool) : Action σ NewFileResult := do
  let d ← get
  let bs := d.superblock.blockSize
  let block_c := updiv length bs
  let enough ← hasFree (if noalloc then 1 else 2 + block_c)
  if ¬ enough then do
    if ¬ noalloc then do
      let _ ← writeFAT 0 old_free_block
    pure (.fail (-ENOSPC))
  else do
    let _ ← writeFAT block old_free_block
    let free_block ← if noalloc then pure old_free_block else findFreeBlock
    if ¬ noalloc ∧ free_block = UNUSABLE then do
      let _ ← writeFAT 0 old_free_block
      pure (.fail (-ENOSPC))
    else do
      if ¬ noalloc then addBlocksFree (-1)
      let newfile := if noalloc then newfile else newfile.setStart free_block
      let offset := toSize (old_free_block * bs)
      let status ← writeEntry newfile offset
      if status < 0 then pure (.fail status)
      else newFileFinish parent newfile offset length old_free_block noalloc true

/-- The four scenarios for placing the new entry in its parent directory. -/
def newFilePlace (parent : FindResult) (newfile : DirEntry) (length : ℕ) (old_free_block : ℤ)
    (noalloc : Bool) : Action σ NewFileResult := do
  let d ← get
  let bs := d.superblock.blockSize
  let block_c := updiv length bs
  let listing ← readDir parent.entry
  if listing.status < 0 then pure (.fail listing.status) else
    match listing.first_index with
    | none => hang
    | some first_index => do
      match ← findFreed (listing.entries.drop first_index) first_index with
      | some (offset, offset_index) => do
        let status ← writeEntry newfile offset
        let increase := ¬ offset_index < parent.entry.len / sizeofDirEntry
        if status < 0 then pure (.fail status)
        else newFileFinish parent newfile offset length old_free_block noalloc increase
      | none =>
        if parent.entry.len ≤ toSize (bs - sizeofDirEntry) then do
          let enough ← if noalloc then pure true else hasFree block_c
          if ¬ enough then do
            let _ ← writeFAT 0 old_free_block
            pure (.fail (-ENOSPC))
          else do
            let offset := toSize (parent.entry.start * bs + parent.entry.len)
            let status ← writeEntry newfile offset
            if status < 0 then pure (.fail status)
            else newFileFinish parent newfile offset length old_free_block noalloc true
        else do
          let (block, remaining) ←
            lastBlockLoop bs (parent.entry.len + 1) parent.entry.len parent.entry.start
          if toSize (bs - sizeofDirEntry) < remaining then
            newFileExpand parent newfile length block old_free_block noalloc
          else do
            let offset := toSize (block * bs + remaining)
            let status ← writeEntry newfile offset
            if status < 0 then pure (.fail status)
            else newFileFinish parent newfile offset length old_free_block noalloc true

def newFile (path : Str) (length : ℕ) (type : FileType) (times : Option Times) (noalloc : Bool) :
    Action σ NewFileResult := do
  let parent ← find path true
  if parent.status < 0 ∧ parent.status ≠ -ENOENT then pure (.fail parent.status)
  else if THORNFAT_PATH_MAX < parent.last_name.length then pure (.fail (-ENAMETOOLONG))
  else do
    let newfile : DirEntry := { DirEntry.empty with
      times := times.getD .zero, length := BitVec.ofNat 64 length, type := type.code }
    let free_block ← findFreeBlock
    if noalloc then newFilePlace parent (newfile.setStart 0) length free_block true
    else if free_block = UNUSABLE then pure (.fail (-ENOSPC))
    else do
      let _ ← writeFAT FINAL free_block
      addBlocksFree (-1)
      newFilePlace parent ((newfile.setStart free_block).setName parent.last_name) length free_block
        false

def remove (path : Str) : Action σ ℤ := do
  let found ← find path false
  if found.status < 0 then pure found.status
  else if found.entry.isDirectory then pure (-EISDIR)
  else do
    let _ ← forget found.entry.start
    let _ ← writeEntry (found.entry.setStart 0) found.offset
    pure 0

/-- The walk in `zeroOutFree` to the block that holds the new end. -/
def zeroSeekLoop (bs : ℕ) : ℕ → ℕ → ℤ → Action σ (ℤ × ℕ)
  | 0, _, _ => hang
  | fuel + 1, remaining, block => do
    if bs < remaining then do
      let block ← readFAT block
      checkBlock block
      zeroSeekLoop bs fuel (remaining - bs) block
    else pure (block, remaining)

def zeroChunk : ℕ := 1024

def zeroWriteLoop : ℕ → ℕ → ℕ → Action σ ℤ
  | 0, _, _ => hang
  | fuel + 1, diff, position => do
    if zeroChunk ≤ diff then do
      let status ← partitionWrite (List.replicate zeroChunk 0) position
      if status < 0 then pure status
      else zeroWriteLoop fuel (diff - zeroChunk) ((position + zeroChunk) % 2 ^ 64)
    else if 0 < diff then do
      let status ← partitionWrite (List.replicate diff 0) position
      if status < 0 then pure status else pure 0
    else pure 0

def zeroOutFree (file : DirEntry) (new_size : ℕ) : Action σ ℤ := do
  let d ← get
  let bs := d.superblock.blockSize
  if new_size % bs = 0 then pure 0
  else if file.len ≤ new_size then pure 0
  else do
    let diff := file.len - new_size
    let remaining := new_size % 2 ^ 32
    checkBlock file.start
    let (block, remaining) ← zeroSeekLoop bs (remaining + 1) remaining file.start
    zeroWriteLoop (diff + 1) diff ((mul32 block bs + remaining) % 2 ^ 64)

def noteBlocks : ℕ → ℤ → Action σ (List ℤ)
  | 0, _ => pure []
  | n + 1, block => do
    let next ← readFAT block
    let rest ← noteBlocks n next
    pure (block :: rest)

def freeBlocks : List ℤ → Action σ Unit
  | [] => pure ()
  | block :: rest => do
    let _ ← writeFAT 0 block
    addBlocksFree 1
    freeBlocks rest

def tailLoop : ℕ → ℤ → Action σ ℤ
  | 0, _ => hang
  | fuel + 1, block => do
    let new_block ← readFAT block
    if new_block ≤ 0 then pure block else tailLoop fuel new_block

def addBlocks : ℕ → ℤ → Action σ ℤ
  | 0, _ => pure 0
  | n + 1, block => do
    let new_block ← findFreeBlock
    if new_block = -1 then pure (-ENOSPC)
    else do
      let _ ← writeFAT new_block block
      let _ ← writeFAT FINAL new_block
      addBlocks n new_block

/-- `resize` updates the entry it is given; the result holds it. -/
def resize (file : DirEntry) (file_offset new_size : ℕ) : Action σ (ℤ × DirEntry) := do
  let d ← get
  let bs := d.superblock.blockSize
  if file.len = new_size then pure (0, file) else do
    let new_c := updiv new_size bs
    let old_c ← if file.start = 0 then pure (updiv file.len bs) else chainLength file.start
    let resized := file.setLength new_size
    if new_size = 0 then do
      let _ ← forget file.start
      let _ ← writeFAT FINAL file.start
      let _ ← writeEntry resized file_offset
      pure (0, resized)
    else if old_c = new_c then do
      let status ← if new_size < file.len then zeroOutFree file new_size else pure 0
      if status < 0 then pure (status, file) else do
        let status ← writeEntry resized file_offset
        if status < 0 then pure (status, resized) else pure (0, resized)
    else if new_c < old_c then do
      let blocks ← noteBlocks old_c file.start
      let status ← zeroOutFree file new_size
      if status < 0 then pure (status, file) else do
        freeBlocks (blocks.drop new_c)
        if 0 < new_c then do
          let _ ← writeFAT FINAL (blocks.getD (new_c - 1) 0)
        let status ← writeEntry resized file_offset
        if status < 0 then pure (status, resized) else pure (0, resized)
    else do
      -- `old_c || 1` is the truth value, so it is 1 for every block count
      let to_add := new_c - 1
      if ¬ (← hasFree to_add) then pure (-ENOSPC, file) else do
        let block ← tailLoop (walkFuel d.superblock) file.start
        let status ← addBlocks to_add block
        if status < 0 then pure (status, file) else do
          addBlocksFree (-to_add)
          let _ ← writeEntry resized file_offset
          pure (0, resized)

def anyStuff : List DirEntry → Action σ Bool
  | [] => pure false
  | entry :: rest => do
    if ← hasStuff entry then pure true else anyStuff rest

def directoryEmpty (dir : DirEntry) : Action σ ℤ := do
  if ¬ dir.isDirectory then pure 0
  else if dir.len = 0 then pure 1
  else do
    let listing ← readDir dir
    if listing.status < 0 then pure listing.status
    else if listing.entries.length ≤ 1 then pure 1
    else do
      if ← anyStuff (listing.entries.map Prod.fst) then pure 0 else pure 1

def rename (srcpath destpath : Str) : Action σ ℤ := do
  let src ← find srcpath false
  if src.status < 0 then pure src.status else do
    let dest ← find destpath false
    if dest.status < 0 ∧ dest.status ≠ -ENOENT then pure dest.status else do
      let (status, dest_offset) ←
        if 0 ≤ dest.status then do
          let status ← remove destpath
          pure (status, dest.offset)
        else do
          let type := if src.entry.isDirectory then FileType.Directory else FileType.File
          let r ← newFile destpath 0 type (some src.entry.times) true
          pure (r.status, r.offset)
      if status < 0 then pure status else
        match pathLast destpath with
        | none => pure (-EINVAL)
        | some destbase => do
          let moved := src.entry.setName (destbase.take THORNFAT_PATH_MAX)
          let status ← partitionWrite moved.encode dest_offset
          if status < 0 then pure status else do
            let status ← partitionWrite (List.replicate sizeofDirEntry 0) src.offset
            if status < 0 then pure status else pure 0

def utimens (path : Str) (time_now : BitVec 64) : Action σ ℤ := do
  let found ← find path false
  if found.status < 0 then pure found.status else do
    let dir := { found.entry with
      times := { found.entry.times with accessed := time_now, modified := time_now } }
    let status ← writeEntry dir found.offset
    if status < 0 then pure status else pure 0

def create (path : Str) (modes : BitVec 32) : Action σ ℤ := do
  let found ← find path false
  if 0 ≤ found.status then pure (-EEXIST) else do
    let r ← newFile (simplifyPath path) 0 .File none false
    if r.status < 0 then pure r.status else do
      let _ ← writeEntry { r.entry with modes := modes } r.offset
      pure 0

def writeSkipLoop (bs : ℕ) : ℕ → ℤ → ℤ → Action σ (ℤ × ℤ)
  | 0, _, _ => hang
  | fuel + 1, offset_left, block => do
    if (bs : ℤ) ≤ offset_left then do
      let block ← readFAT block
      writeSkipLoop bs fuel (offset_left - bs) block
    else pure (block, offset_left)

/-- The block-by-block loop of `write`; the result is the status of a failed
transfer and the number of bytes written. -/
def writeBlockLoop (bs : ℕ) (buffer : List UInt8) : ℕ → ℕ → ℕ → ℕ → ℤ → Action σ (ℤ × ℕ)
  | 0, _, _, _, _ => hang
  | fuel + 1, size_left, bytes_written, position, block => do
    if size_left = 0 then pure (0, bytes_written) else do
      let to_write := if bs < size_left then bs else size_left
      let status ← partitionWrite ((buffer.drop bytes_written).take to_write) position
      if status < 0 then pure (status, bytes_written) else do
        let next ← readFAT block
        let left := size_left - to_write
        let written := bytes_written + to_write
        if next = FINAL ∧ left ≠ 0 then pure (0, written)
        else if next ≠ FINAL then do
          checkBlock next
          writeBlockLoop bs buffer fuel left written (toSize (next * bs)) next
        else writeBlockLoop bs buffer fuel left written ((position + to_write) % 2 ^ 64) next

def writeData (bs : ℕ) (buffer : List UInt8) (block offset_left : ℤ) : Action σ (ℤ × ℕ) := do
  let d ← get
  let position := toSize (block * bs + offset_left)
  let size := buffer.length
  if toSize (offset_left + size) ≤ bs then do
    let status ← partitionWrite buffer position
    if status < 0 then pure (status, 0) else pure (0, size)
  else if 0 < offset_left then do
    let to_write := (bs - offset_left).toNat
    let status ← partitionWrite (buffer.take to_write) position
    if status ≠ 0 then hang else do
      let next ← readFAT block
      checkBlock next
      writeBlockLoop bs buffer (size + walkFuel d.superblock) (size - to_write) to_write (toSize (next * bs)) next
  else writeBlockLoop bs buffer (size + walkFuel d.superblock) size 0 position block

def write (path : Str) (buffer : List UInt8) (offset : ℤ) : Action σ ℤ := do
  let d ← get
  let bs := d.superblock.blockSize
  let found ← find path false
  if found.status < 0 then pure found.status else do
    let length := found.entry.len
    let stop := toSize (offset + buffer.length)
    let (status, file) ← resize found.entry found.offset (if length < stop then stop else length)
    if status < 0 then pure status else do
      let (block, offset_left) ← writeSkipLoop bs (offset.toNat + 1) offset file.start
      checkBlock block
      let (status, bytes_written) ← writeData bs buffer block offset_left
      if status < 0 then pure status else do
        let _ ← writeEntry file found.offset
        pure (toInt32 bytes_written)

def mkdir (path : Str) : Action σ ℤ := do
  let r ← newFile (simplifyPath path) sizeofDirEntry .Directory none false
  if r.status < 0 then pure r.status else do
    let d ← get
    let status ← writeEntry (r.parent.setName dotDotName)
      (mul32 r.entry.start d.superblock.blockSize)
    if status < 0 then pure status else pure 0

def truncate (path : Str) (size : ℤ) : Action σ ℤ := do
  let found ← find path false
  if found.status < 0 then pure found.status else do
    let (status, _) ← resize found.entry found.offset (toSize size)
    pure status

def rmdir (path : Str) : Action σ ℤ := do
  if path = [slash] ∨ path = [] then pure (-EINVAL) else do
    let found ← find path false
    if found.status < 0 then pure found.status
    else if ¬ found.entry.isDirectory then pure (-ENOTDIR)
    else do
      let empty ← directoryEmpty found.entry
      if empty = 0 then do
        let listing ← readDir found.entry
        if listing.status < 0 then pure listing.status else pure (-ENOTEMPTY)
      else do
        let _ ← forget found.entry.start
        let _ ← writeEntry ((found.entry.setStart 0).setLength 0) found.offset
        pure 0

def unlink (path : Str) : Action σ ℤ := do
  let status ← remove path
  if status < 0 then pure status else pure 0

/-- The skipping loop of `read`; `none` stands for its `-EINVAL` exit. -/
def readSkipLoop (bs : ℕ) : ℕ → ℤ → ℤ → Action σ (Option (ℤ × ℤ))
  | 0, _, _ => hang
  | fuel + 1, offset_left, block => do
    if (bs : ℤ) ≤ offset_left then do
      let block_fat ← readFAT block
      if block_fat ≠ -2 ∧ block_fat < 1 then pure none
      else readSkipLoop bs fuel (offset_left - bs) block_fat
    else pure (some (block, offset_left))

def readBlockLoop (bs : ℕ) : ℕ → ℕ → ℕ → ℤ → List UInt8 → Action σ (ℤ × List UInt8)
  | 0, _, _, _, _ => hang
  | fuel + 1, size_left, position, block, buffer => do
    if size_left = 0 then pure (0, buffer) else do
      let to_read := if bs < size_left then bs else size_left
      let (status, bytes) ← partitionRead to_read position
      if status < 0 then pure (status, buffer)
      else if size_left - to_read = 0 then pure (0, buffer ++ bytes)
      else do
        let block ← readFAT block
        if block = -2 then pure (0, buffer ++ bytes)
        else readBlockLoop bs fuel (size_left - to_read) (toSize (block * bs)) block (buffer ++ bytes)

def readData (bs size : ℕ) (block offset_left : ℤ) : Action σ (ℤ × List UInt8) := do
  let d ← get
  let position := toSize (block * bs + offset_left)
  if toSize (offset_left + size) ≤ bs then do
    let (status, bytes) ← partitionRead size position
    if status < 0 then pure (status, []) else pure (0, bytes)
  else if 0 < offset_left then do
    let to_read := (bs - offset_left).toNat
    let (status, bytes) ← partitionRead to_read position
    let position := (position + to_read) % 2 ^ 64
    if status < 0 then pure (status, [])
    else readBlockLoop bs (size + walkFuel d.superblock) (size - to_read) position block bytes
  else readBlockLoop bs (size + walkFuel d.superblock) size position block []

/-- The status of `read` and the bytes it stored at the start of the buffer. -/
def read (path : Str) (size : ℕ) (offset : ℤ) : Action σ (ℤ × List UInt8) := do
  let d ← get
  let bs := d.superblock.blockSize
  let found ← find path false
  if found.status < 0 then pure (found.status, [])
  else if found.entry.len = 0 ∧ found.entry.isDirectory then pure (-ENOENT, [])
  else if found.entry.len ≤ toSize offset then pure (0, [])
  else do
    match ← readSkipLoop bs (offset.toNat + 1) offset found.entry.start with
    | none => pure (-EINVAL, [])
    | some (block, offset_left) => do
      checkBlock block
      let (status, buffer) ← readData bs size block offset_left
      if status < 0 then pure (status, buffer) else do
        let status ← writeEntry found.entry found.offset
        if status < 0 then pure (status, buffer) else pure (toInt32 buffer.length, buffer)

def listEntries : List (DirEntry × ℕ) → Action σ (List (Str × ℕ))
  | [] => pure []
  | (entry, offset) :: rest => do
    let free ← isFree entry
    let more ← listEntries rest
    pure (if free then more else (entry.name.toStr, offset) :: more)

/-- The status of `readdir` and the filler's calls, in order. -/
def readdir (path : Str) : Action σ (ℤ × List (Str × ℕ)) := do
  let found ← find path false
  if found.status < 0 then pure (found.status, [])
  else if ¬ found.entry.isDirectory then pure (-ENOTDIR, [])
  else do
    let d ← get
    let self := if found.entry.start = d.superblock.startBlock then [] else [(dotName, 0)]
    let listing ← readDir found.entry
    if listing.status < 0 then pure (listing.status, self) else do
      let calls ← listEntries listing.entries
      pure (0, self ++ calls)

def tableSize (block_count block_size : ℕ) : ℕ :=
  if block_count < block_size / 4 then 1 else updiv block_count (block_size / 4)

def writeRecord (bytes : List UInt8) : Action σ ℤ := do
  let d ← get
  let status ← partitionWrite bytes d.writeOffset
  if status ≠ 0 then pure (-status) else do
    modify fun d => { d with writeOffset := (d.writeOffset + bytes.length) % 2 ^ 64 }
    pure 0

def writeMany (n : ℤ) : ℕ → Action σ ℤ
  | 0 => pure 0
  | count + 1 => do
    let d ← get
    let status ← partitionWrite (blockBytes n) d.writeOffset
    if status ≠ 0 then pure (-status) else do
      modify fun d => { d with writeOffset := (d.writeOffset + 4) % 2 ^ 64 }
      writeMany n count

def initFATLoop : ℕ → ℕ → ℕ → Action σ Unit
  | 0, _, _ => hang
  | fuel + 1, position, remaining => do
    if 512 ≤ remaining then do
      let _ ← partitionWrite (List.replicate 512 0) position
      initFATLoop fuel (position + 512) (remaining - 512)
    else do
      let _ ← partitionWrite (List.replicate remaining 0) position

def initFAT (table_size block_size : ℕ) : Action σ Unit := do
  initFATLoop (table_size * block_size + 1) block_size (table_size * block_size)
  modify fun d => { d with writeOffset := block_size }
  let _ ← writeMany UNUSABLE (table_size + 1)
  let _ ← writeMany FINAL 1

def initData (table_size : ℕ) : Action σ Unit := do
  let root : DirEntry := { DirEntry.empty with
    name := .ofBytes dotName, length := BitVec.ofNat 64 (2 * sizeofDirEntry),
    startBlock := BitVec.ofNat 32 (table_size + 1), type := FileType.Directory.code }
  modify fun d => { d with root := root }
  let _ ← writeRecord root.encode
  let _ ← writeRecord (root.setName dotDotName).encode

def make (block_size : ℕ) : Action σ Bool := do
  let status ← partitionClear
  if status ≠ 0 then pure false else do
    let d ← get
    if block_size = 0 then hang else do
      let block_count := d.partition.length / block_size
      if block_count < MINBLOCKS then pure false
      else if block_size % sizeofDirEntry ≠ 0 then pure false
      else if block_size < 2 * sizeofDirEntry then pure false
      else if block_size < sizeofSuperblock then pure false
      else do
        let table_size := tableSize block_count block_size
        if 2 ^ 32 - 1 ≤ table_size then pure false else do
          let superblock : Superblock :=
            ⟨MAGIC, block_count, table_size, block_size, toInt32 (table_size + 1)⟩
          modify fun d => { d with superblock := superblock, writeOffset := 0 }
          let _ ← writeRecord superblock.encode
          initFAT table_size block_size
          initData table_size
          pure true

def readSuperblock : Action σ ℤ := do
  let (status, bytes) ← partitionRead sizeofSuperblock 0
  modify fun d => { d with superblock := .decode bytes }
  if status ≠ 0 then hang else pure (-status)

def verify : Action σ Bool := do
  let status ← readSuperblock
  let d ← get
  pure (status = 0 ∧ d.superblock.magic = MAGIC)

/-- The constructor: a driver with nothing cached over a partition. -/
def mount (partition : Partition σ) : Option (Driver σ) :=
  (readSuperblock.run ⟨partition, ⟨0, 0, 0, 0, 0⟩, -1, .empty, 0⟩).map Prod.snd

end Thorn.FatOperations

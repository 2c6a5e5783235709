import Thorn.Cache
import Thorn.Library.Bytes

set_option autoImplicit false

/-!
# The cached AHCI block device

`AHCIDevice.cpp`: requests are cut into an unaligned head, whole blocks and a
tail, each served from the cache. An action is `none` when an assertion fails or
the kernel halts in `perish`. The port is written by `flush` alone.
-/
namespace Thorn.AHCI
open ByteStore

abbrev BlockSize : ℕ := 512

/-- Only the first `BlockSize` bytes of the data count. -/
structure StorageCacheEntry where
  data : Store
  flushed : Bool

def StorageCacheEntry.fresh : StorageCacheEntry := ⟨fun _ => 0, false⟩

inductive AccessStatus
  | Success
  | DiskError
  | BadSlot
  | Hung
deriving DecidableEq

def AccessStatus.code : AccessStatus → ℤ
  | .Success => 0
  | .DiskError => 1
  | .BadSlot => 2
  | .Hung => 3

class Port (π : Type) where
  write : π → (lba : ℕ) → List UInt8 → AccessStatus × π

structure AHCIDevice (π : Type) where
  cache : Cache StorageCacheEntry
  port : π

abbrev Action (π α : Type) := StateT (AHCIDevice π) Option α

section
variable {π : Type}

def halt {α : Type} : Action π α := fun _ => none

def lookup (block : ℕ) : Action π Bool := fun d =>
  some ((d.cache.lookup .fresh block).2, { d with cache := (d.cache.lookup .fresh block).1 })

def entry (block : ℕ) : Action π StorageCacheEntry := fun d =>
  some ((d.cache.map block).getD .fresh, d)

def update (block : ℕ) (f : StorageCacheEntry → StorageCacheEntry) : Action π Unit := fun d =>
  some ((), { d with cache := d.cache.update block f })

/-- The unaligned head of a request: its entry, filled by `read` when it is new. -/
def readHead (read : ℕ → ℕ → Action π (ℤ × List UInt8)) (size offset : ℕ) : Action π (ℤ × List UInt8) := do
  let rem := offset % BlockSize
  let block := offset / BlockSize
  let created ← lookup block
  let status ← if created then do
      let (status, bytes) ← read BlockSize (offset - rem)
      if status ≠ 0 then pure status else do
        update block fun e => ⟨patch e.data 0 bytes, true⟩
        pure 0
    else pure 0
  if status ≠ 0 then pure (status, []) else do
    let e ← entry block
    pure (0, slice e.data rem (min size (BlockSize - rem)))

def readTail (read : ℕ → ℕ → Action π (ℤ × List UInt8)) (size offset : ℕ) : Action π (ℤ × List UInt8) := do
  let block := offset / BlockSize
  let created ← lookup block
  let status ← if created then do
      let (status, bytes) ← read size offset
      if status ≠ 0 then pure status else do
        update block fun e => ⟨patch e.data 0 bytes, true⟩
        pure 0
    else pure 0
  if status ≠ 0 then pure (status, []) else do
    let e ← entry block
    pure (0, slice e.data 0 size)

/-- The whole blocks of a request and its tail; the fuel is above its length. -/
def readAligned (read : ℕ → ℕ → Action π (ℤ × List UInt8)) : ℕ → ℕ → ℕ → Action π (ℤ × List UInt8)
  | 0, _, _ => halt
  | fuel + 1, size, offset => do
    if BlockSize ≤ size then do
      let block := offset / BlockSize
      let _ ← lookup block
      update block fun e => ⟨e.data, false⟩
      let e ← entry block
      let bytes := slice e.data 0 BlockSize
      if size - BlockSize = 0 then pure (0, bytes) else do
        let (status, rest) ← readAligned read fuel (size - BlockSize) (offset + BlockSize)
        pure (status, bytes ++ rest)
    -- `assert(size > 0)`
    else if size = 0 then halt
    else readTail read size offset

/-- `readCache` calls `read` again to fill a new entry; that call finds the entry. -/
def readCache : ℕ → ℕ → ℕ → Action π (ℤ × List UInt8)
  | 0, _, _ => halt
  | depth + 1, size, offset => do
    let rem := offset % BlockSize
    if rem ≠ 0 then do
      let (status, bytes) ← readHead (readCache depth) size offset
      if status ≠ 0 then pure (status, []) else do
        let affected := min size (BlockSize - rem)
        if size - affected = 0 then pure (0, bytes) else do
          let (status, rest) ← readAligned (readCache depth) size (size - affected) (offset + affected)
          pure (status, bytes ++ rest)
    else readAligned (readCache depth) (size + 1) size offset

def read (size offset : ℕ) : Action π (ℤ × List UInt8) := readCache 2 size offset

/-- A part of a block: `data[rem..]` of its entry, which is filled when it is new. -/
def writePart (block rem fill_size fill_offset : ℕ) (buffer : List UInt8) : Action π ℤ := do
  let created ← lookup block
  let status ← if created then do
      let (status, bytes) ← read fill_size fill_offset
      if status ≠ 0 then pure status else do
        update block fun e => ⟨patch e.data 0 bytes, e.flushed⟩
        pure 0
    else do
      update block fun e => ⟨e.data, false⟩
      pure 0
  if status ≠ 0 then pure status else do
    update block fun e => ⟨patch e.data rem buffer, e.flushed⟩
    pure 0

def writeAligned : ℕ → List UInt8 → ℕ → Action π ℤ
  | 0, _, _ => halt
  | fuel + 1, buffer, offset => do
    if BlockSize ≤ buffer.length then do
      let block := offset / BlockSize
      let _ ← lookup block
      update block fun e => ⟨e.data, false⟩
      update block fun e => ⟨patch e.data 0 (buffer.take BlockSize), e.flushed⟩
      if buffer.length - BlockSize = 0 then pure 0
      else writeAligned fuel (buffer.drop BlockSize) (offset + BlockSize)
    else if buffer.length = 0 then halt
    else writePart (offset / BlockSize) 0 buffer.length offset buffer

def writeCache (buffer : List UInt8) (offset : ℕ) : Action π ℤ := do
  let rem := offset % BlockSize
  if rem ≠ 0 then do
    let affected := min buffer.length (BlockSize - rem)
    let status ← writePart (offset / BlockSize) rem BlockSize (offset - rem) (buffer.take affected)
    if status ≠ 0 then pure status
    else if buffer.length - affected = 0 then pure 0
    else writeAligned buffer.length (buffer.drop affected) (offset + affected)
  else writeAligned (buffer.length + 1) buffer offset

def write (buffer : List UInt8) (offset : ℕ) : Action π ℤ := writeCache buffer offset

variable [Port π]

def portWrite (lba : ℕ) (buffer : List UInt8) : Action π AccessStatus := fun d =>
  let r := Port.write d.port lba buffer
  some (r.1, { d with port := r.2 })

/-- A status of zero, which is `Success`, halts the kernel. -/
def flushEntry (block : ℕ) : Action π Unit := do
  let e ← entry block
  if e.flushed then pure () else do
    let status ← portWrite block (slice e.data 0 BlockSize)
    if status.code = 0 then halt
    else update block fun e => ⟨e.data, true⟩

def flushLoop : List ℕ → Action π Unit
  | [] => pure ()
  | block :: rest => do
    flushEntry block
    flushLoop rest

/-- The entries in the order of the map. -/
def flush : Action π Unit := do
  let d ← get
  flushLoop (d.cache.list.mergeSort (· ≤ ·))

end

end Thorn.AHCI

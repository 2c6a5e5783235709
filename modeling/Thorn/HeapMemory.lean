import Thorn.Library.Bytes
import Thorn.Library.Runs

set_option autoImplicit false

/-!
# The kernel heap

`Memory.cpp`: the members of `Memory`, the bytes its block headers live in, and
the addresses handed to `assignAddress`. A null pointer is address 0. A function
whose loop never ends has no result.
-/
namespace Thorn
open ByteStore Runs

def MEMORY_ALIGN : ℕ := 32

/-- `sizeof(BlockMeta)`: the size at 0, the link at 8, the flag at 16. -/
def sizeofBlockMeta : ℕ := 24

structure Memory where
  allocated : ℕ
  start : ℕ
  high : ℕ
  end_ : ℕ
  base : ℕ
  highestAllocated : ℕ
  ram : Store
  assigned : List ℕ

namespace Memory

def PAGE_LENGTH : ℕ := 4096

def uintptr (n : ℕ) : ℕ := n % 2 ^ 64

section Header
variable (ram : Store) (block : ℕ)

def blockSize : ℕ := leNat (slice ram block 8)

def blockNext : ℕ := leNat (slice ram (block + 8) 8)

def blockFree : Bool := ram (block + 16) != 0

def setSize (size : ℕ) : Store := patch ram block (leBytes 8 size)

def setNext (next : ℕ) : Store := patch ram (block + 8) (leBytes 8 next)

def setFree (free : Bool) : Store := patch ram (block + 16) [if free then 1 else 0]

end Header

def realign (val : ℕ) : ℕ :=
  let offset := uintptr (val + sizeofBlockMeta) % MEMORY_ALIGN
  if offset ≠ 0 then uintptr (val + (MEMORY_ALIGN - offset)) else val

def construct (start_ high_ : ℕ) (ram : Store) : Memory :=
  { allocated := 0, start := realign start_, high := high_, end_ := start_, base := 0, highestAllocated := start_,
    ram := ram, assigned := [] }

def setBounds (m : Memory) (new_start new_high : ℕ) : Memory :=
  { m with start := realign new_start, highestAllocated := realign new_start, high := new_high, end_ := new_start }

def findFreeBlock (ram : Store) (size : ℕ) : ℕ → ℕ → ℕ → Option (ℕ × ℕ)
  | 0, _, _ => none
  | fuel + 1, current, last =>
    if current ≠ 0 ∧ ¬(blockFree ram current ∧ size ≤ blockSize ram current) then
      findFreeBlock ram size fuel (blockNext ram current) current
    else some (current, last)

def assignPages : ℕ → Memory → Option Memory
  | 0, _ => none
  | fuel + 1, m =>
    if m.highestAllocated ≤ m.end_ then
      assignPages fuel
        { m with
          assigned := m.highestAllocated :: m.assigned
          highestAllocated := uintptr (m.highestAllocated + PAGE_LENGTH) }
    else some m

def requestSpace (m : Memory) (last size : ℕ) : Option (Memory × ℕ) :=
  let block := realign m.end_
  let ram := if last ≠ 0 then setNext m.ram last block else m.ram
  let end_ := uintptr (block + size + sizeofBlockMeta + 1)
  match assignPages (2 ^ 52 + 1) { m with ram := ram, end_ := end_ } with
  | none => none
  | some m => some ({ m with ram := setFree (setNext (setSize m.ram block size) block 0) block false }, block)

def toInt (d : ℤ) : ℤ := d.bmod (2 ^ 32)

def split (ram : Store) (block size : ℕ) : Store :=
  if uintptr (size + sizeofBlockMeta) < blockSize ram block then
    let new_block := realign (uintptr (block + size + sizeofBlockMeta + 1))
    if blockNext ram block ≠ 0 then
      let new_size := toInt (blockNext ram block - new_block - sizeofBlockMeta)
      if 0 < new_size then
        let ram := setSize ram new_block new_size.toNat
        let ram := setNext ram new_block (blockNext ram block)
        let ram := setFree ram new_block true
        let ram := setNext ram block new_block
        setSize ram block size
      else ram
    else
      let new_size := toInt (block + blockSize ram block - new_block)
      if 0 < new_size then
        let ram := setSize ram new_block new_size.toNat
        let ram := setFree ram new_block true
        let ram := setNext ram new_block 0
        let ram := setSize ram block size
        setNext ram block new_block
      else ram
  else ram

/-- `allocated += block->size + sizeof(BlockMeta); return block + 1`. -/
def handOut (m : Memory) (block : ℕ) : Memory × ℕ :=
  ({ m with allocated := uintptr (m.allocated + (blockSize m.ram block + sizeofBlockMeta)) },
    uintptr (block + sizeofBlockMeta))

def allocate (m : Memory) (size : ℕ) : Option (Memory × ℕ) :=
  if size = 0 then some (m, 0)
  else if m.base = 0 then
    match m.requestSpace 0 size with
    | none => none
    | some (m, block) => if block = 0 then some (m, 0) else some (handOut { m with base := block } block)
  else
    match findFreeBlock m.ram size (2 ^ 64) m.base m.base with
    | none => none
    | some (block, last) =>
      if block = 0 then
        match m.requestSpace last size with
        | none => none
        | some (m, block) => if block = 0 then some (m, 0) else some (handOut m block)
      else some (handOut { m with ram := setFree (split m.ram block size) block false } block)

def getBlock (ptr : ℕ) : ℕ := uintptr (ptr + (2 ^ 64 - sizeofBlockMeta))

def mergeFrom : ℕ → Store → ℕ → ℕ → Option (Store × ℕ)
  | 0, _, _, _ => none
  | fuel + 1, ram, current, count =>
    if current ≠ 0 ∧ blockNext ram current ≠ 0 then
      if blockFree ram current ∧ blockFree ram (blockNext ram current) then
        let ram := setSize ram current
          (blockSize ram current + (sizeofBlockMeta + blockSize ram (blockNext ram current)))
        let ram := setNext ram current (blockNext ram (blockNext ram current))
        mergeFrom fuel ram current (count + 1)
      else mergeFrom fuel ram (blockNext ram current) count
    else some (ram, count)

def merge (m : Memory) : Option (Memory × ℕ) :=
  match mergeFrom (2 ^ 64) m.ram m.base 0 with
  | none => none
  | some (ram, count) => some ({ m with ram := ram }, count)

def free (m : Memory) (ptr : ℕ) : Option Memory :=
  if ptr = 0 then some m
  else
    let block := getBlock ptr
    let ram := setFree m.ram block true
    let m :=
      { m with
        ram := ram
        allocated := uintptr (m.allocated + (2 ^ 64 - uintptr (blockSize ram block + sizeofBlockMeta))) }
    match m.merge with
    | none => none
    | some (m, _) => some m

def getAllocated (m : Memory) : ℕ := m.allocated

def getUnallocated (m : Memory) : ℕ := uintptr (m.high + (2 ^ 64 - m.start) + (2 ^ 64 - m.allocated))

def bounded (new_start new_high : ℕ) (ram : Store) : Memory := (construct 0 0 ram).setBounds new_start new_high

end Memory

/-- The heap and the allocations its users hold, each with the size asked for. -/
structure Heap where
  memory : Memory
  live : List (ℕ × ℕ)

namespace Heap

inductive Call
  | allocate (size : ℕ)
  | free (ptr : ℕ)
  | store (addr : ℕ) (value : UInt8)

def call (s : Heap) : Call → Option Heap
  | .allocate size =>
    (s.memory.allocate size).map fun r => ⟨r.1, if r.2 = 0 then s.live else (r.2, size) :: s.live⟩
  | .free ptr => (s.memory.free ptr).map fun m => ⟨m, s.live.filter fun x => x.1 ≠ ptr⟩
  | .store addr value => some ⟨{ s.memory with ram := patch s.memory.ram addr [value] }, s.live⟩

/-- A call that does not return leads nowhere. -/
def next (s : Heap) (c : Call) : Heap := (s.call c).getD s

def fresh (new_start new_high : ℕ) (ram : Store) : Heap := ⟨.bounded new_start new_high ram, []⟩

/-- Users free what they hold, and store into what they hold. -/
def Proper (s : Heap) : Call → Prop
  | .allocate _ => True
  | .free ptr => ∃ n, (ptr, n) ∈ s.live
  | .store addr _ => ∃ p n, (p, n) ∈ s.live ∧ p ≤ addr ∧ addr < p + n

end Heap

end Thorn

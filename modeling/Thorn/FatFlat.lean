import Thorn.FatOperations
import Thorn.Library.Blocks

set_option autoImplicit false

namespace Thorn.FatDriver
open ByteStore Paths FatTypes FatOperations

abbrev Fs := Driver FlatDevice

section Run
variable {σ : Type} {α β : Type}

@[simp] theorem run_bind (x : Action σ α) (f : α → Action σ β) (s : Driver σ) :
    (x >>= f) s = (x s).bind fun p => f p.1 p.2 := rfl

@[simp] theorem run_pure (a : α) (s : Driver σ) : (pure a : Action σ α) s = some (a, s) := rfl

@[simp] theorem run_get (s : Driver σ) : (get : Action σ (Driver σ)) s = some (s, s) := rfl

@[simp] theorem run_set (s t : Driver σ) : (set t : Action σ PUnit) s = some (⟨⟩, t) := rfl

@[simp] theorem run_modify (f : Driver σ → Driver σ) (s : Driver σ) :
    (modify f : Action σ PUnit) s = some (⟨⟩, f s) := rfl

@[simp] theorem run_ite (c : Prop) [Decidable c] (x y : Action σ α) (s : Driver σ) :
    (if c then x else y) s = if c then x s else y s := by
  split_ifs <;> rfl

@[simp] theorem run_hang (s : Driver σ) : (hang : Action σ α) s = none := rfl

@[simp] theorem run_addBlocksFree (n : ℤ) (s : Driver σ) :
    addBlocksFree n s = some ((), { s with blocksFree := s.blocksFree + n }) := rfl

end Run

/-- The bytes of the partition, and of the disk behind its end. -/
def Driver.data (s : Fs) : Store := fun p => s.partition.parent.bytes (s.partition.offset + p)

def Driver.peek (s : Fs) (p n : ℕ) : List UInt8 :=
  slice s.partition.parent.bytes ((s.partition.offset + p) % 2 ^ 64) n

def Driver.poke (s : Fs) (p : ℕ) (buffer : List UInt8) : Fs :=
  { s with partition := { s.partition with
      writeRecords := s.partition.writeRecords ++ [⟨buffer.length, p⟩]
      parent := ⟨patch s.partition.parent.bytes ((s.partition.offset + p) % 2 ^ 64) buffer⟩ } }

@[irreducible] def cellAt (m : Store) (o : ℕ) : ℤ := blockOfBytes (slice m (o % 2 ^ 64) 4)

@[irreducible] def entryAt (m : Store) (o : ℕ) : DirEntry := .decode (slice m o sizeofDirEntry)

def Driver.fat (s : Fs) (b : ℤ) : ℤ :=
  cellAt s.partition.parent.bytes (s.partition.offset + fatOffset s.superblock b)

def Driver.putFAT (s : Fs) (v b : ℤ) : Fs := s.poke (fatOffset s.superblock b) (blockBytes v)

def Driver.entry (s : Fs) (k : ℕ) : DirEntry := entryAt s.data (320 * k)

def Driver.block (s : Fs) (b : ℕ) : List UInt8 := blockAt s.data s.superblock.blockSize b

def Driver.free (s : Fs) (e : DirEntry) : Bool := e.start = 0 || s.fat e.start = 0

def Driver.freeList (s : Fs) : List ℕ :=
  (List.range s.superblock.blockCount).filter fun b : ℕ => s.fat b = 0

def blockOrUnusable : Option ℕ → ℤ
  | none => UNUSABLE
  | some b => toInt32 b

def Driver.firstFree (s : Fs) : ℤ := blockOrUnusable s.freeList.head?

def Driver.addFree (s : Fs) (n : ℤ) : Fs := { s with blocksFree := s.blocksFree + n }

@[simp] theorem run_partitionRead (n p : ℕ) (s : Fs) : partitionRead n p s = some ((0, s.peek p n), s) := rfl

@[simp] theorem run_partitionWrite (buffer : List UInt8) (p : ℕ) (s : Fs) :
    partitionWrite buffer p s = some (0, s.poke p buffer) := rfl

theorem entry_eq (s : Fs) (k : ℕ) : s.entry k = .decode (slice s.data (320 * k) 320) := by
  rw [Driver.entry, entryAt]
  rfl

@[simp] theorem run_readFAT (b : ℤ) (s : Fs) : readFAT b s = some (s.fat b, s) := by
  simp [readFAT, Driver.fat, cellAt, Driver.peek]

@[simp] theorem run_writeFAT (v b : ℤ) (s : Fs) : writeFAT v b s = some (0, s.putFAT v b) := by
  simp [writeFAT, Driver.putFAT]

@[simp] theorem run_isFree (e : DirEntry) (s : Fs) : isFree e s = some (s.free e, s) := by
  by_cases h : e.start = 0
  · simp only [isFree, Driver.free, h, ite_true, run_pure, decide_true, Bool.true_or]
  · simp only [isFree, Driver.free, h, ite_false, run_bind, run_readFAT, Option.bind_some, run_pure,
      decide_false, Bool.false_or]

theorem filter_free_pos (n i : ℕ) (s : Fs) (h : s.fat i = 0) :
    (List.range' i (n + 1)).filter (fun b : ℕ => s.fat b = 0) =
      i :: (List.range' (i + 1) n).filter fun b : ℕ => s.fat b = 0 := by
  rw [List.range'_succ, List.filter_cons_of_pos]
  simpa using h

theorem filter_free_neg (n i : ℕ) (s : Fs) (h : s.fat i ≠ 0) :
    (List.range' i (n + 1)).filter (fun b : ℕ => s.fat b = 0) =
      (List.range' (i + 1) n).filter fun b : ℕ => s.fat b = 0 := by
  rw [List.range'_succ, List.filter_cons_of_neg]
  simpa using h

theorem run_findFreeLoop (n i : ℕ) (s : Fs) :
    findFreeLoop n i s =
      some (blockOrUnusable ((List.range' i n).filter fun b : ℕ => s.fat b = 0).head?, s) := by
  induction n generalizing i with
  | zero => rfl
  | succ n ih =>
    rw [findFreeLoop, run_bind, run_readFAT, Option.bind_some]
    by_cases h : s.fat i = 0
    · rw [if_pos h, run_pure, filter_free_pos n i s h]
      rfl
    · rw [if_neg h, ih, filter_free_neg n i s h]

@[simp] theorem run_findFreeBlock (s : Fs) : findFreeBlock s = some (s.firstFree, s) := by
  simp only [findFreeBlock, run_bind, run_get, Option.bind_some, run_findFreeLoop,
    Driver.firstFree, Driver.freeList, List.range_eq_range']

theorem run_hasFreeLoop (count n i scanned : ℕ) (s : Fs) :
    hasFreeLoop count n i scanned s = some
      (decide (((List.range' i n).filter fun b : ℕ => s.fat b = 0) ≠ [] ∧
        count ≤ scanned + ((List.range' i n).filter fun b : ℕ => s.fat b = 0).length), s) := by
  induction n generalizing i scanned with
  | zero => rfl
  | succ n ih =>
    rw [hasFreeLoop, run_bind, run_readFAT, Option.bind_some]
    by_cases h : s.fat i = 0
    · rw [if_pos h, filter_free_pos n i s h, run_ite, run_pure, ih]
      generalize (List.range' (i + 1) n).filter (fun b : ℕ => s.fat b = 0) = l
      by_cases hc : count ≤ scanned + 1
      · rw [if_pos hc, decide_eq_true]
        exact ⟨by simp, by simp only [List.length_cons]; omega⟩
      · rw [if_neg hc]
        refine congrArg (fun b => some (b, s)) (decide_eq_decide.mpr ?_)
        cases l with
        | nil =>
          simp only [List.length_nil, List.length_cons, ne_eq]
          omega
        | cons c l =>
          simp only [ne_eq, List.cons_ne_nil, not_false_eq_true, true_and, List.length_cons]
          omega
    · rw [if_neg h, ih, filter_free_neg n i s h]

@[simp] theorem run_hasFree (count : ℕ) (s : Fs) :
    hasFree count s = some (decide (s.freeList ≠ [] ∧ count ≤ s.freeList.length), s) := by
  simp only [hasFree, run_bind, run_get, Option.bind_some, run_hasFreeLoop, Driver.freeList,
    List.range_eq_range', Nat.zero_add]

section Poke

@[simp] theorem poke_superblock (s : Fs) (p : ℕ) (l : List UInt8) :
    (s.poke p l).superblock = s.superblock := rfl
@[simp] theorem poke_blocksFree (s : Fs) (p : ℕ) (l : List UInt8) :
    (s.poke p l).blocksFree = s.blocksFree := rfl
@[simp] theorem poke_root (s : Fs) (p : ℕ) (l : List UInt8) : (s.poke p l).root = s.root := rfl
@[simp] theorem poke_offset (s : Fs) (p : ℕ) (l : List UInt8) :
    (s.poke p l).partition.offset = s.partition.offset := rfl
@[simp] theorem poke_length (s : Fs) (p : ℕ) (l : List UInt8) :
    (s.poke p l).partition.length = s.partition.length := rfl
@[simp] theorem poke_writeRecords (s : Fs) (p : ℕ) (l : List UInt8) :
    (s.poke p l).partition.writeRecords = s.partition.writeRecords ++ [⟨l.length, p⟩] := rfl
@[simp] theorem putFAT_superblock (s : Fs) (v b : ℤ) : (s.putFAT v b).superblock = s.superblock := rfl
@[simp] theorem putFAT_blocksFree (s : Fs) (v b : ℤ) : (s.putFAT v b).blocksFree = s.blocksFree := rfl
@[simp] theorem putFAT_root (s : Fs) (v b : ℤ) : (s.putFAT v b).root = s.root := rfl
@[simp] theorem putFAT_offset (s : Fs) (v b : ℤ) : (s.putFAT v b).partition.offset = s.partition.offset := rfl
@[simp] theorem putFAT_length (s : Fs) (v b : ℤ) : (s.putFAT v b).partition.length = s.partition.length := rfl
@[simp] theorem addFree_zero (s : Fs) : s.addFree 0 = s := by simp [Driver.addFree]
@[simp] theorem addFree_addFree (s : Fs) (m n : ℤ) : (s.addFree m).addFree n = s.addFree (m + n) := by
  simp [Driver.addFree, add_assoc]
@[simp] theorem addFree_partition (s : Fs) (n : ℤ) : (s.addFree n).partition = s.partition := rfl
@[simp] theorem addFree_superblock (s : Fs) (n : ℤ) : (s.addFree n).superblock = s.superblock := rfl
@[simp] theorem addFree_root (s : Fs) (n : ℤ) : (s.addFree n).root = s.root := rfl
@[simp] theorem addFree_blocksFree (s : Fs) (n : ℤ) : (s.addFree n).blocksFree = s.blocksFree + n := rfl
@[simp] theorem addFree_data (s : Fs) (n : ℤ) : (s.addFree n).data = s.data := rfl
@[simp] theorem addFree_fat (s : Fs) (n b : ℤ) : (s.addFree n).fat b = s.fat b := rfl
@[simp] theorem addFree_entry (s : Fs) (n : ℤ) (k : ℕ) : (s.addFree n).entry k = s.entry k := rfl

theorem poke_data (s : Fs) (p : ℕ) (l : List UInt8) (h : s.partition.offset + p < 2 ^ 64) :
    (s.poke p l).data = patch s.data p l := by
  funext q
  simp only [Driver.data, Driver.poke, Nat.mod_eq_of_lt h, patch]
  by_cases hq : p ≤ q ∧ q < p + l.length
  · rw [if_pos hq, if_pos (by omega)]
    congr 1
    omega
  · rw [if_neg hq, if_neg (by omega)]

theorem peek_eq_slice (s : Fs) (p n : ℕ) (h : s.partition.offset + p < 2 ^ 64) :
    s.peek p n = slice s.data p n := by
  simp only [Driver.peek, Driver.data, slice, Nat.mod_eq_of_lt h, Nat.add_assoc]

end Poke

end Thorn.FatDriver

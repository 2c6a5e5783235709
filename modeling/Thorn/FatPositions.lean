import Thorn.FatFormat

set_option autoImplicit false

/-!
# Byte positions

A `block_t` times the `uint32_t` block size is a `uint32_t`. For each function
that computes a position so: the position, and the place in the model where it is
used.
-/
namespace Thorn.FatPositions
open ByteStore Paths FatTypes FatDriver FatOperations

/-- `superblock.startBlock * superblock.blockSize`. -/
def rootPosition (s : Superblock) : ℕ := mul32 s.startBlock s.blockSize

def findPosition (s : Superblock) : ℕ := rootPosition s

def getRootPosition (s : Superblock) : ℕ := rootPosition s

def writeEntryPosition (s : Superblock) : ℕ := rootPosition s

def readDirPosition (s : Superblock) (block : ℤ) (rem : ℕ) : ℕ :=
  (mul32 block s.blockSize + rem * sizeofDirEntry) % 2 ^ 64

def readFilePosition (s : Superblock) (block : ℤ) : ℕ := mul32 block s.blockSize

def zeroOutFreePosition (s : Superblock) (block : ℤ) (remaining : ℕ) : ℕ :=
  (mul32 block s.blockSize + remaining) % 2 ^ 64

def mkdirPosition (s : Superblock) (block : ℤ) : ℕ := mul32 block s.blockSize

section Uses
variable {σ : Type} [StorageDevice σ] {d : Driver σ}

theorem getRoot_position {p : (DirEntry × ℕ) × Driver σ} (h : getRoot d = some p) :
    p.1.2 = getRootPosition d.superblock := by
  rw [getRoot, run_bind, run_get, Option.bind_some, run_ite] at h
  split_ifs at h
  · rw [← Option.some.inj h]
    rfl
  · rw [← Option.some.inj h]
    rfl

theorem findEntry_mem {search : Str} {l : List (DirEntry × ℕ)} {x : DirEntry × ℕ} {d' : Driver σ}
    (h : findEntry search l d = some (some x, d')) : x ∈ l := by
  induction l generalizing d with
  | nil => cases h
  | cons y l ih =>
    rw [findEntry, run_ite] at h
    split_ifs at h
    · rw [run_bind] at h
      obtain ⟨⟨free, d₁⟩, -, h⟩ := Option.bind_eq_some_iff.mp h
      dsimp only at h
      rw [run_ite] at h
      split_ifs at h
      · exact List.mem_cons_of_mem _ (ih h)
      · cases h
        exact List.mem_cons_self
    · exact List.mem_cons_of_mem _ (ih h)

/-- The entry is the root at its position, or one that a directory listing gives with that offset. -/
def Located (σ : Type) [StorageDevice σ] (s : Superblock) (entry : DirEntry) (offset : ℕ) : Prop :=
  offset = findPosition s ∨ ∃ (dir : DirEntry) (d : Driver σ) (q : DirListing × Driver σ),
    readDir dir d = some q ∧ (entry, offset) ∈ q.1.entries

theorem findLoop_position {s : Superblock} {get_parent : Bool} {fuel offset : ℕ} {remaining : Str} {dir : DirEntry}
    {p : FindResult × Driver σ} (hdir : Located σ s dir offset)
    (h : findLoop get_parent fuel remaining dir offset d = some p) (hs : 0 ≤ p.1.status) :
    Located σ s p.1.entry p.1.offset := by
  have hfail : ∀ {status : ℤ} {d' : Driver σ}, status < 0 → some (FindResult.fail status, d') = some p →
      Located σ s p.1.entry p.1.offset := by
    rintro status d' hneg h
    cases h
    exact absurd hs (not_le.mpr hneg)
  induction fuel generalizing remaining dir offset d with
  | zero => cases h
  | succ fuel ih =>
    rw [findLoop] at h
    cases hfirst : pathFirst remaining with
    | mk first newpath =>
      rw [hfirst] at h
      cases first with
      | none =>
        dsimp only at h
        rw [run_ite] at h
        split_ifs at h
        · cases h
          exact hdir
        · exact hfail (by decide) h
      | some search =>
        dsimp only at h
        rw [run_ite] at h
        by_cases hat : newpath = [] ∧ get_parent
        · rw [if_pos hat] at h
          cases h
          exact hdir
        · rw [if_neg hat, run_bind] at h
          obtain ⟨⟨listing, d₁⟩, hlist, h⟩ := Option.bind_eq_some_iff.mp h
          dsimp only at h
          rw [run_ite] at h
          by_cases hneg : listing.status < 0
          · rw [if_pos hneg] at h
            exact hfail hneg h
          · rw [if_neg hneg, run_bind] at h
            obtain ⟨⟨found, d₂⟩, hentry, h⟩ := Option.bind_eq_some_iff.mp h
            cases found with
            | none => exact hfail (by decide) h
            | some x =>
              have hlocated : Located σ s x.1 x.2 := .inr ⟨dir, d, _, hlist, findEntry_mem hentry⟩
              dsimp only at h
              rw [run_ite, run_ite] at h
              split_ifs at h
              · cases h
                exact hlocated
              · exact hfail (by decide) h
              · exact ih hlocated h

theorem find_position {p : FindResult × Driver σ} {path : Str} {get_parent : Bool} (h : find path get_parent d = some p)
    (hs : 0 ≤ p.1.status) : Located σ d.superblock p.1.entry p.1.offset := by
  rw [find, run_bind] at h
  obtain ⟨⟨⟨root, start⟩, d'⟩, hroot, hrest⟩ := Option.bind_eq_some_iff.mp h
  have hstart : Located σ d.superblock root start := .inl (getRoot_position hroot)
  dsimp only at hrest
  rw [run_ite] at hrest
  split_ifs at hrest
  · cases hrest
    exact hstart
  · exact findLoop_position hstart hrest hs

theorem readDir_position {raw : List UInt8} {entries_per_block n i : ℕ} {block : ℤ}
    {p : List (DirEntry × ℕ) × Driver σ}
    (h : readDirLoop raw d.superblock.blockSize entries_per_block (n + 1) i block d = some p) :
    p.1.head?.map Prod.snd = some (readDirPosition d.superblock block (i % entries_per_block)) := by
  rw [readDirLoop] at h
  split_ifs at h with hlast
  · rw [run_bind] at h
    obtain ⟨q, -, h⟩ := Option.bind_eq_some_iff.mp h
    dsimp only at h
    rw [run_bind] at h
    obtain ⟨r, -, h⟩ := Option.bind_eq_some_iff.mp h
    rw [← Option.some.inj h]
    rfl
  · rw [run_bind] at h
    obtain ⟨q, -, h⟩ := Option.bind_eq_some_iff.mp h
    dsimp only at h
    rw [run_bind] at h
    obtain ⟨r, -, h⟩ := Option.bind_eq_some_iff.mp h
    rw [← Option.some.inj h]
    rfl

theorem mkdir_position (path : Str) : (mkdir path : Action σ ℤ) = (do
    let r ← newFile (simplifyPath path) sizeofDirEntry .Directory none false
    if r.status < 0 then pure r.status else do
      let d ← get
      let status ← writeEntry (r.parent.setName dotDotName) (mkdirPosition d.superblock r.entry.start)
      if status < 0 then pure status else pure 0) := rfl

end Uses

/-- A device that notes where it is asked, and answers each transfer alike. -/
structure Probe where
  status : ℤ
  asked : List ℕ

instance : StorageDevice Probe where
  read d _ offset := ((d.status, []), { d with asked := d.asked ++ [offset] })
  write d _ offset := (d.status, { d with asked := d.asked ++ [offset] })
  clear d _ _ := (d.status, d)

section Asked
variable {d : Driver Probe}

def asked {α : Type} (x : Action Probe α) (d : Driver Probe) : Option (List ℕ) :=
  (x d).map fun p => p.2.partition.parent.asked

def partitionPosition (d : Driver Probe) (position : ℕ) : ℕ := (d.partition.offset + position) % 2 ^ 64

theorem readFile_position (hfail : d.partition.parent.status < 0) (file : DirEntry) (fuel remaining : ℕ)
    (block : ℤ)
    (out : List UInt8) (h0 : remaining ≠ 0) (hlast : remaining ≤ d.superblock.blockSize) (hblock : 1 ≤ block) :
    asked (readFileLoop file d.superblock.blockSize (fuel + 1) remaining block out) d =
      some (d.partition.parent.asked ++ [partitionPosition d (readFilePosition d.superblock block)]) := by
  rw [asked, readFileLoop, run_ite, if_neg h0, run_ite, if_pos hlast, run_bind, checkBlock, if_neg (by omega),
    run_pure, Option.bind_some, run_bind, partitionRead, Option.bind_some]
  dsimp only
  rw [run_ite]
  exact congrArg (Option.map _) (if_pos hfail)

theorem run_probeWrite (d : Driver Probe) (buffer : List UInt8) (position : ℕ) :
    ∃ d', (partitionWrite buffer position : Action Probe ℤ) d = some (d.partition.parent.status, d') ∧
      d'.superblock = d.superblock ∧ d'.partition.offset = d.partition.offset ∧
      d'.partition.parent = ⟨d.partition.parent.status, d.partition.parent.asked ++ [partitionPosition d position]⟩ :=
  ⟨_, rfl, rfl, rfl, rfl⟩

theorem asked_refreshRoot (dir : DirEntry) : asked (refreshRoot dir) d = some d.partition.parent.asked := by
  rw [asked, refreshRoot, run_bind, run_get, Option.bind_some]
  split_ifs <;> rfl

theorem asked_zeroWriteLoop (hfail : d.partition.parent.status < 0) (fuel diff position : ℕ) (h0 : 0 < diff) :
    asked (zeroWriteLoop (fuel + 1) diff position) d =
      some (d.partition.parent.asked ++ [partitionPosition d position]) := by
  rw [asked, zeroWriteLoop]
  by_cases hchunk : zeroChunk ≤ diff
  · obtain ⟨d', hrun, -, -, hparent⟩ := run_probeWrite d (List.replicate zeroChunk 0) position
    rw [if_pos hchunk, run_bind, hrun, Option.bind_some, run_ite, if_pos hfail, run_pure, Option.map_some,
      hparent]
  · obtain ⟨d', hrun, -, -, hparent⟩ := run_probeWrite d (List.replicate diff 0) position
    rw [if_neg hchunk, if_pos h0, run_bind, hrun, Option.bind_some, run_ite, if_pos hfail, run_pure,
      Option.map_some, hparent]

theorem zeroOutFree_position (hfail : d.partition.parent.status < 0) (file : DirEntry) (remaining : ℕ)
    (h0 : remaining ≠ 0) (hlast : remaining < d.superblock.blockSize) (hsize : d.superblock.blockSize < 2 ^ 32)
    (hlen : remaining < file.len) (hblock : 1 ≤ file.start) : asked (zeroOutFree file remaining) d =
      some (d.partition.parent.asked ++
        [partitionPosition d (zeroOutFreePosition d.superblock file.start remaining)]) := by
  have hmod : remaining % d.superblock.blockSize ≠ 0 := by rwa [Nat.mod_eq_of_lt hlast]
  have hword : remaining % 2 ^ 32 = remaining := Nat.mod_eq_of_lt (by omega)
  rw [asked, zeroOutFree, run_bind, run_get, Option.bind_some]
  dsimp only
  rw [run_ite, if_neg hmod, run_ite, if_neg (by omega), run_bind, checkBlock, if_neg (by omega), run_pure,
    Option.bind_some, hword, run_bind, zeroSeekLoop, run_ite, if_neg (by omega), run_pure, Option.bind_some]
  exact asked_zeroWriteLoop hfail _ _ _ (by omega)

theorem writeEntry_position (hok : d.partition.parent.status = 0) (dir : DirEntry) (offset : ℕ) :
    asked (writeEntry dir offset) d = some (d.partition.parent.asked ++ partitionPosition d offset ::
      if offset = writeEntryPosition d.superblock then
        [partitionPosition d ((offset + sizeofDirEntry) % 2 ^ 64)] else []) := by
  obtain ⟨d₁, hrun₁, hsuper, hoffset, hparent⟩ := run_probeWrite d dir.encode offset
  rw [asked, writeEntry, run_bind, hrun₁, Option.bind_some, run_ite, if_neg (not_not.mpr hok), run_bind,
    run_get, Option.bind_some, hsuper, show mul32 _ _ = writeEntryPosition d.superblock from rfl]
  by_cases hroot : offset = writeEntryPosition d.superblock
  · obtain ⟨d₂, hrun₂, -, -, hparent₂⟩ := run_probeWrite d₁ (dir.setName dotDotName).encode
      ((offset + sizeofDirEntry) % 2 ^ 64)
    have hok₂ : ¬ d₁.partition.parent.status < 0 := by
      rw [hparent, hok]
      omega
    rw [if_pos hroot, if_pos hroot, run_bind, hrun₂, Option.bind_some, run_ite, if_neg hok₂]
    refine (asked_refreshRoot dir).trans ?_
    have hposition : ∀ position,
        partitionPosition d₁ position = partitionPosition d position := fun position => by
      unfold partitionPosition
      rw [hoffset]
    rw [hparent₂, hparent, hposition, List.append_assoc]
    rfl
  · rw [if_neg hroot, if_neg hroot]
    refine (asked_refreshRoot dir).trans ?_
    rw [hparent]

end Asked

/-- Every block number fits a `block_t`, and every function computes the byte
position of a data block, and of what lies in it, without wrapping. -/
structure AddressesExact (s : Superblock) : Prop where
  numbers : ∀ b < s.blockCount, toInt32 b = b
  find : findPosition s = (s.fatBlocks + 1) * s.blockSize
  getRoot : getRootPosition s = (s.fatBlocks + 1) * s.blockSize
  writeEntry : writeEntryPosition s = (s.fatBlocks + 1) * s.blockSize
  readDir : ∀ b, s.fatBlocks < b → b < s.blockCount → ∀ rem, rem * sizeofDirEntry < s.blockSize →
    readDirPosition s (toInt32 b) rem = b * s.blockSize + rem * sizeofDirEntry
  readFile : ∀ b, s.fatBlocks < b → b < s.blockCount → readFilePosition s (toInt32 b) = b * s.blockSize
  zeroOutFree : ∀ b, s.fatBlocks < b → b < s.blockCount → ∀ o < s.blockSize,
    zeroOutFreePosition s (toInt32 b) o = b * s.blockSize + o
  mkdir : ∀ b, s.fatBlocks < b → b < s.blockCount → mkdirPosition s (toInt32 b) = b * s.blockSize

theorem mul32_lt (block : ℤ) (size : ℕ) : mul32 block size < 2 ^ 32 := by
  unfold mul32
  omega

section Geometry
variable {σ : Type} [StorageDevice σ] {d d' : Driver σ} {block_size : ℕ}

/-- Below 4 GiB nothing wraps. -/
theorem addressesExact_of_small {length block_size : ℕ} (h : Accepted length block_size)
    (hsmall : (length / block_size - 1) * block_size < 2 ^ 32) :
    AddressesExact (geometry length block_size) := by
  have htwo : 640 ≤ block_size := h.two
  have hroom := h.room
  have hbytes : ∀ b < length / block_size, b * block_size < 2 ^ 32 := fun b hb =>
    lt_of_le_of_lt (Nat.mul_le_mul_right block_size (by omega)) hsmall
  have hcount : ∀ b < length / block_size, b < 2 ^ 31 := fun b hb => by
    have := Nat.mul_le_mul_left b htwo
    have := hbytes b hb
    omega
  have hnumber : ∀ b < length / block_size, toInt32 b = b := fun b hb =>
    toInt32_of_range b (by omega) (by exact_mod_cast hcount b hb)
  have hposition : ∀ b < length / block_size, mul32 (toInt32 b) block_size = b * block_size := fun b hb => by
    rw [hnumber b hb]
    exact mul32_natCast b block_size (hbytes b hb)
  have hroot : rootPosition (geometry length block_size) =
      (tableSize (length / block_size) block_size + 1) * block_size := by
    have := hposition _ hroom
    rwa [Nat.cast_succ] at this
  have hsize : block_size < 2 ^ 32 := by
    have := hbytes 1 (by omega)
    omega
  refine ⟨hnumber, hroot, hroot, hroot, fun b _ hb rem hrem => ?_, fun b _ hb => hposition b hb,
    fun b _ hb o ho => ?_, fun b _ hb => hposition b hb⟩
  · have := hbytes b hb
    change rem * sizeofDirEntry < block_size at hrem
    change (mul32 (toInt32 b) block_size + rem * sizeofDirEntry) % 2 ^ 64 =
        b * block_size + rem * sizeofDirEntry
    rw [hposition b hb, Nat.mod_eq_of_lt (by omega)]
  · have := hbytes b hb
    change o < block_size at ho
    change (mul32 (toInt32 b) block_size + o) % 2 ^ 64 = b * block_size + o
    rw [hposition b hb, Nat.mod_eq_of_lt (by omega)]

/-- On a partition that `make` formats, addresses are exact just when the last
block starts below 4 GiB. -/
theorem addresses_exact_iff (h : make block_size d = some (true, d')) :
    AddressesExact d'.superblock ↔ (d.partition.length / block_size - 1) * block_size < 2 ^ 32 := by
  obtain ⟨haccepted, hsuper⟩ := make_true h
  have hroom := haccepted.room
  rw [hsuper]
  constructor
  · intro hexact
    have hlast := hexact.readFile (d.partition.length / block_size - 1)
      (show tableSize _ _ < _ by omega) (show _ < d.partition.length / block_size by omega)
    change mul32 _ block_size = (d.partition.length / block_size - 1) * block_size at hlast
    rw [← hlast]
    exact mul32_lt _ _
  · exact addressesExact_of_small haccepted

end Geometry

def blank (length : ℕ) : Driver FlatDevice :=
  ⟨⟨[], ⟨fun _ => 0⟩, 0, length⟩, ⟨0, 0, 0, 0, 0⟩, -1, .empty, 0⟩

/-- A partition of one mebibyte. -/
theorem addresses_exact_mebibyte : ∃ d', make 640 (blank (2 ^ 20)) = some (true, d') ∧
    AddressesExact d'.superblock := by
  obtain ⟨d', hrun, -⟩ := make_accepts (d := blank (2 ^ 20)) (b := 640) rfl
    ⟨by decide, by decide, by decide, by decide, by decide⟩
  exact ⟨d', hrun, (addresses_exact_iff hrun).mpr (by decide)⟩

/-- A partition of eight gibibytes: the last block's position wraps. -/
theorem addresses_wrap :
    ∃ d', make 640 (blank (2 ^ 33)) = some (true, d') ∧ ¬ AddressesExact d'.superblock := by
  obtain ⟨d', hrun, hsuper⟩ := make_accepts (d := blank (2 ^ 33)) (b := 640) rfl
    ⟨by decide, by decide, by decide, by decide, by decide⟩
  refine ⟨d', hrun, fun h => ?_⟩
  rw [hsuper] at h
  have hlast := h.readFile 13421771 (by decide) (by decide)
  revert hlast
  decide

end Thorn.FatPositions

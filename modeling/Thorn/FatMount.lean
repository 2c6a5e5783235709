import Thorn.FatFormat
import Thorn.FatState

set_option autoImplicit false

/-!
# Mounting what `make` has formatted

The superblock that `make` writes is the one a fresh driver reads. The root's
entries go wherever the table's records ended, so the root directory's block
stays blank.
-/
namespace Thorn.FatDriver
open ByteStore Paths FatTypes FatOperations

theorem field_skip (as bs : List UInt8) (o n k : ℕ) (h : as.length = k) :
    field (as ++ bs) (k + o) n = field bs o n := by
  rw [← h]
  exact field_append_right as bs o n

theorem field_leBytes (w v : ℕ) (bs : List UInt8) (hv : v < 256 ^ w) : field (leBytes w v ++ bs) 0 w = v := by
  rw [field_append_self _ _ _ (leBytes_length w v), leNat_leBytes, Nat.mod_eq_of_lt hv]

structure SuperblockFits (b : Superblock) : Prop where
  magic : b.magic < 2 ^ 32
  blockCount : b.blockCount < 2 ^ 64
  fatBlocks : b.fatBlocks < 2 ^ 32
  blockSize : b.blockSize < 2 ^ 32
  startBlock : toInt32 b.startBlock = b.startBlock

theorem superblock_length (b : Superblock) : b.encode.length = 24 := by
  simp [Superblock.encode]

theorem decode_superblock {b : Superblock} (h : SuperblockFits b) : Superblock.decode b.encode = b := by
  obtain ⟨magic, blockCount, fatBlocks, blockSize, startBlock⟩ := b
  obtain ⟨h₁, h₂, h₃, h₄, h₅⟩ := h
  have f₁ : field (Superblock.encode ⟨magic, blockCount, fatBlocks, blockSize, startBlock⟩) 0 4 = magic := by
    simp only [Superblock.encode, List.append_assoc]
    exact field_leBytes 4 magic _ h₁
  have f₂ : field (Superblock.encode ⟨magic, blockCount, fatBlocks, blockSize, startBlock⟩) 4 8 =
      blockCount := by
    simp only [Superblock.encode, List.append_assoc]
    rw [field_skip _ _ 0 8 4 (by simp)]
    exact field_leBytes 8 blockCount _ h₂
  have f₃ : field (Superblock.encode ⟨magic, blockCount, fatBlocks, blockSize, startBlock⟩) 12 4 =
      fatBlocks := by
    simp only [Superblock.encode, List.append_assoc]
    rw [field_skip _ _ 8 4 4 (by simp), field_skip _ _ 0 4 8 (by simp)]
    exact field_leBytes 4 fatBlocks _ h₃
  have f₄ : field (Superblock.encode ⟨magic, blockCount, fatBlocks, blockSize, startBlock⟩) 16 4 =
      blockSize := by
    simp only [Superblock.encode, List.append_assoc]
    rw [field_skip _ _ 12 4 4 (by simp), field_skip _ _ 4 4 8 (by simp), field_skip _ _ 0 4 4 (by simp)]
    exact field_leBytes 4 blockSize _ h₄
  have f₅ : toInt32 (field (Superblock.encode ⟨magic, blockCount, fatBlocks, blockSize, startBlock⟩) 20 4) =
      startBlock := by
    have hfield : field (Superblock.encode ⟨magic, blockCount, fatBlocks, blockSize, startBlock⟩) 20 4 =
        leNat (blockBytes startBlock) := by
      simp only [Superblock.encode, List.append_assoc]
      rw [field_skip _ _ 16 4 4 (by simp), field_skip _ _ 8 4 8 (by simp), field_skip _ _ 4 4 4 (by simp),
        field_skip _ _ 0 4 4 (by simp), field, List.drop_zero, List.take_of_length_le (by simp)]
    rw [hfield]
    exact (blockOfBytes_blockBytes startBlock).trans h₅
  simp only [Superblock.decode, f₁, f₂, f₃, f₄, f₅]

section Blank
variable {s : Fs}

def Addressed (s : Fs) : Prop := s.partition.offset + s.partition.length ≤ 2 ^ 64

/-- While formatting: the superblock stands, and byte `q` is blank. -/
structure Blank (s t : Fs) (super : List UInt8) (q : ℕ) : Prop where
  frame : t.partition.offset = s.partition.offset ∧ t.partition.length = s.partition.length
  super : slice t.data 0 24 = super
  blank : t.data q = 0

variable {t u : Fs} {super : List UInt8} {q : ℕ}

theorem Blank.same (h : Blank s t super q) (hu : u.partition = t.partition) : Blank s u super q := by
  have hdata : u.data = t.data := by
    funext p
    simp only [Driver.data, hu]
  constructor
  · rw [hu]
    exact h.frame
  · rw [hdata]
    exact h.super
  · rw [hdata]
    exact h.blank

theorem Blank.poke (hs : Addressed s) (h : Blank s t super q) (bytes : List UInt8) {p : ℕ} (hp : 24 ≤ p)
    (hlen : p < s.partition.length) (hq : q < p ∨ p + bytes.length ≤ q ∨ bytes.getD (q - p) 0 = 0) :
    Blank s (t.poke p bytes) super q := by
  unfold Addressed at hs
  have hdata := poke_data t p bytes (by rw [h.frame.1]; omega)
  refine ⟨h.frame, ?_, ?_⟩
  · rw [hdata, slice_patch_disjoint _ _ _ _ _ (.inl (by omega))]
    exact h.super
  · rw [hdata]
    by_cases hin : p ≤ q ∧ q < p + bytes.length
    · have hz : bytes.getD (q - p) 0 = 0 := by
        rcases hq with hq | hq | hq
        · omega
        · omega
        · exact hq
      rw [patch, if_pos hin, hz]
    · rw [patch_outside _ _ _ _ (by omega)]
      exact h.blank

theorem Blank.record (hs : Addressed s) (h : Blank s t super q) {w : ℕ} (bytes : List UInt8)
    (hw : t.writeOffset = w) (h24 : 24 ≤ w) (hlen : w + bytes.length < s.partition.length)
    (hq : q < w ∨ w + bytes.length ≤ q ∨ bytes.getD (q - w) 0 = 0) :
    ∃ u, writeRecord bytes t = some (0, u) ∧ Blank s u super q ∧ u.writeOffset = w + bytes.length ∧
      u.superblock = t.superblock := by
  unfold Addressed at hs
  have hpoke : (t.poke w bytes).writeOffset = w := hw
  refine ⟨{ t.poke w bytes with writeOffset := (w + bytes.length) % 2 ^ 64 }, ?_, ?_, ?_, rfl⟩
  · simp only [writeRecord, run_bind, run_get, Option.bind_some, run_partitionWrite, run_ite, ne_eq,
      not_true_eq_false, ite_false, run_modify, run_pure, hw, hpoke]
  · exact (h.poke hs _ h24 (by omega) hq).same rfl
  · exact Nat.mod_eq_of_lt (by omega)

theorem Blank.many (hs : Addressed s) (h : Blank s t super q) (n : ℤ) (count : ℕ) {w : ℕ}
    (hw : t.writeOffset = w)
    (h24 : 24 ≤ w) (hlen : w + 4 * count < s.partition.length) (hq : w + 4 * count ≤ q) :
    ∃ u, writeMany n count t = some (0, u) ∧ Blank s u super q ∧ u.writeOffset = w + 4 * count ∧
      u.superblock = t.superblock := by
  induction count generalizing t w with
  | zero => exact ⟨t, rfl, h, by rw [hw, Nat.mul_zero, Nat.add_zero], rfl⟩
  | succ count ih =>
    have hword : (w + 4) % 2 ^ 64 = w + 4 := by
      unfold Addressed at hs
      exact Nat.mod_eq_of_lt (by omega)
    have hpoke : (t.poke w (blockBytes n)).writeOffset = w := hw
    have hone := h.poke hs (blockBytes n) h24 (by omega) (.inr (.inl (by rw [blockBytes_length]; omega)))
    obtain ⟨u, hrun, hu, hoff, hsup⟩ :=
      ih (w := w + 4) (t := { t.poke w (blockBytes n) with writeOffset := w + 4 })
      (hone.same rfl) rfl (by omega) (by omega) (by omega)
    refine ⟨u, ?_, hu, by rw [hoff]; omega, hsup⟩
    rw [← hrun, writeMany]
    simp only [run_bind, run_get, Option.bind_some, run_partitionWrite, run_ite, ne_eq, not_true_eq_false,
      ite_false, run_modify, hw, hpoke, hword]

theorem Blank.zeros (hs : Addressed s) (h : Blank s t super q) (fuel position remaining : ℕ)
    (hfuel : remaining < fuel) (h24 : 24 ≤ position) (hlen : position + remaining < s.partition.length) :
    ∃ u, initFATLoop fuel position remaining t = some ((), u) ∧ Blank s u super q ∧ u.superblock = t.superblock := by
  induction fuel generalizing t position remaining with
  | zero => omega
  | succ fuel ih =>
    have hzero : ∀ n i, (List.replicate n (0 : UInt8)).getD i 0 = 0 := by
      intro n i
      by_cases hi : i < n
      · simp [hi]
      · simp [Nat.le_of_not_lt hi]
    rw [initFATLoop, run_ite]
    by_cases hlarge : 512 ≤ remaining
    · have hone := h.poke hs (List.replicate 512 0) h24 (by omega) (.inr (.inr (hzero _ _)))
      obtain ⟨u, hrun, hu, hsup⟩ := ih hone (position + 512) (remaining - 512) (by omega) (by omega) (by omega)
      refine ⟨u, ?_, hu, hsup⟩
      rw [if_pos hlarge, run_bind, run_partitionWrite, Option.bind_some, hrun]
    · refine ⟨t.poke position (List.replicate remaining 0), ?_, ?_, rfl⟩
      · rw [if_neg hlarge, run_bind, run_partitionWrite, Option.bind_some, run_pure]
      · exact h.poke hs _ h24 (by omega) (.inr (.inr (hzero _ _)))

end Blank

theorem encode_padding (e : DirEntry) (i : ℕ) (hi : 300 ≤ i) : e.encode.getD i 0 = 0 := by
  have hsplit : e.encode = (e.name.str ++ leBytes 8 e.times.created.toNat ++ leBytes 8 e.times.modified.toNat ++
      leBytes 8 e.times.accessed.toNat ++ leBytes 8 e.length.toNat ++ leBytes 4 e.startBlock.toNat ++
      leBytes 4 e.type.toNat ++ leBytes 4 e.modes.toNat) ++ List.replicate 20 0 := by
    simp only [DirEntry.encode, List.append_assoc]
  have hlen : (e.name.str ++ leBytes 8 e.times.created.toNat ++ leBytes 8 e.times.modified.toNat ++
      leBytes 8 e.times.accessed.toNat ++ leBytes 8 e.length.toNat ++ leBytes 4 e.startBlock.toNat ++
      leBytes 4 e.type.toNat ++ leBytes 4 e.modes.toNat).length = 300 := by
    simp [e.name.size, THORNFAT_PATH_MAX]
  rw [hsplit, List.getD_eq_getElem?_getD, List.getElem?_append_right (by omega), hlen, List.getElem?_replicate]
  split_ifs <;> rfl

section Format
variable {s : Fs} {b : ℕ}

theorem tableSize_pos (count b : ℕ) (hb : 4 ≤ b) (hcount : 0 < count) : 0 < tableSize count b := by
  unfold tableSize
  split_ifs
  · exact Nat.one_pos
  · exact updiv_pos _ _ (by omega) hcount

theorem accepted_layout {length b : ℕ} (h : Accepted length b) :
    0 < tableSize (length / b) b ∧ (tableSize (length / b) b + 2) * b ≤ length ∧
      640 * tableSize (length / b) b ≤ tableSize (length / b) b * b ∧ 640 ≤ b ∧ b % 320 = 0 := by
  have htwo : 640 ≤ b := h.two
  have henough := h.enough
  have hroom := h.room
  have hmul : (tableSize (length / b) b + 2) * b ≤ length / b * b := Nat.mul_le_mul_right _ hroom
  refine ⟨tableSize_pos _ _ (by omega) ?_, hmul.trans (Nat.div_mul_le_self _ _), ?_, htwo, h.entries⟩
  · simp only [MINBLOCKS] at henough
    omega
  · rw [Nat.mul_comm 640]
    exact Nat.mul_le_mul_left _ htwo

theorem geometry_fits {length b : ℕ} (h : Accepted length b) (hlen : length < 2 ^ 32) :
    SuperblockFits (geometry length b) := by
  have htable := h.table
  have hlayout := accepted_layout h
  have hcount : length / b ≤ length := Nat.div_le_self _ _
  constructor
  · change MAGIC < 2 ^ 32
    decide
  · change length / b < 2 ^ 64
    omega
  · change tableSize (length / b) b < 2 ^ 32
    omega
  · change b < 2 ^ 32
    have hmul : 2 * b ≤ (tableSize (length / b) b + 2) * b := Nat.mul_le_mul_right _ (by omega)
    omega
  · change toInt32 (toInt32 _) = toInt32 _
    exact toInt32_of_range _ (toInt32_range _).1 (toInt32_range _).2

theorem format_blank (hs : Addressed s) (h : Accepted s.partition.length b) :
    ∃ t, format (geometry s.partition.length b) (clearing s).2 = some (true, t) ∧
      Blank s t (geometry s.partition.length b).encode ((tableSize (s.partition.length / b) b + 1) * b) := by
  obtain ⟨hts, hlength, hwide, hb, hmod⟩ := accepted_layout h
  have hq : (tableSize (s.partition.length / b) b + 1) * b =
      tableSize (s.partition.length / b) b * b + b := by ring
  have hq2 : (tableSize (s.partition.length / b) b + 2) * b =
      tableSize (s.partition.length / b) b * b + b + b := by ring
  have hfat : (geometry s.partition.length b).fatBlocks = tableSize (s.partition.length / b) b := rfl
  have hbsz : (geometry s.partition.length b).blockSize = b := rfl
  generalize hG : geometry s.partition.length b = G at *
  generalize hT : tableSize (s.partition.length / b) b = ts at *
  have hlenG := superblock_length G
  -- the superblock, on the cleared partition
  have h₁ : ∃ t, writeRecord G.encode { (clearing s).2 with superblock := G, writeOffset := 0 } = some (0, t) ∧
      Blank s t G.encode ((ts + 1) * b) := by
    have hstart : (s.partition.offset + 0) % 2 ^ 64 = s.partition.offset := by
      unfold Addressed at hs
      omega
    have hdata := poke_data { (clearing s).2 with superblock := G, writeOffset := 0 } 0 G.encode (by
      change s.partition.offset + 0 < 2 ^ 64
      unfold Addressed at hs
      omega)
    refine ⟨{ ({ (clearing s).2 with superblock := G, writeOffset := 0 } : Fs).poke 0 G.encode with
      writeOffset := (0 + G.encode.length) % 2 ^ 64 }, rfl, ⟨rfl, rfl⟩, ?_, ?_⟩
    · have hself :=
        slice_patch_self (Driver.data { (clearing s).2 with superblock := G, writeOffset := 0 }) 0 G.encode
      rw [← hdata, hlenG] at hself
      exact hself
    · change Driver.data (Driver.poke { (clearing s).2 with superblock := G, writeOffset := 0 } 0 G.encode) _ =
          0
      rw [hdata, patch_outside _ _ _ _ (.inr (by omega))]
      have hin : s.partition.offset ≤ s.partition.offset + (ts + 1) * b ∧
          s.partition.offset + (ts + 1) * b < s.partition.offset + s.partition.length := by omega
      exact if_pos hin
  obtain ⟨t₁, hr₁, hb₁⟩ := h₁
  obtain ⟨t₂, hr₂, hb₂, -⟩ := hb₁.zeros hs (ts * b + 1) b (ts * b) (by omega) (by omega) (by omega)
  obtain ⟨t₃, hr₃, hb₃, hw₃, -⟩ := (hb₂.same (u := { t₂ with writeOffset := b }) rfl).many hs UNUSABLE (ts + 1)
    (w := b) rfl (by omega) (by omega) (by omega)
  obtain ⟨t₄, hr₄, hb₄, hw₄, -⟩ := hb₃.many hs FINAL 1 hw₃ (by omega) (by omega) (by omega)
  have hfatrun : initFAT ts b t₁ = some ((), t₄) := by
    simp only [initFAT, run_bind, hr₂, Option.bind_some, run_modify, hr₃, hr₄, run_pure]
  -- the entries follow the table's records, short of the root's block but for padding
  obtain ⟨root, hroot⟩ : ∃ root : DirEntry, root = { DirEntry.empty with
    name := .ofBytes dotName, length := BitVec.ofNat 64 (2 * sizeofDirEntry),
    startBlock := BitVec.ofNat 32 (ts + 1), type := FileType.Directory.code } := ⟨_, rfl⟩
  obtain ⟨t₅, hr₅, hb₅, hw₅, -⟩ := (hb₄.same (u := { t₄ with root := root }) rfl).record hs
    (w := b + 4 * (ts + 1) + 4 * 1) root.encode hw₄ (by omega) (by rw [DirEntry.encode_length]; omega)
    (.inr (.inl (by rw [DirEntry.encode_length]; omega)))
  rw [DirEntry.encode_length] at hw₅
  obtain ⟨t₆, hr₆, hb₆, -, -⟩ := hb₅.record hs (root.setName dotDotName).encode hw₅ (by omega)
    (by rw [DirEntry.encode_length]; omega) (by
      rw [DirEntry.encode_length]
      by_cases hpad : b + 4 * (ts + 1) + 4 * 1 + 320 + 320 ≤ (ts + 1) * b
      · exact .inr (.inl hpad)
      · exact .inr (.inr (encode_padding _ _ (by omega))))
  have hdatarun : initData ts t₄ = some ((), t₆) := by
    simp only [initData, run_bind, run_modify, Option.bind_some, ← hroot, hr₅, hr₆, run_pure]
  refine ⟨t₆, ?_, hb₆⟩
  rw [format, run_bind, run_modify, Option.bind_some, run_bind, hr₁, Option.bind_some, run_bind, hfat, hbsz,
    hfatrun, Option.bind_some, run_bind, hdatarun, Option.bind_some, run_pure]

theorem mount_blank {t : Fs} {q : ℕ} (hs : Addressed s) (hpos : 0 < s.partition.length) {super : Superblock}
    (hfits : SuperblockFits super) (h : Blank s t super.encode q) :
    ∃ u, mount t.partition = some u ∧ u.superblock = super ∧ u.partition = t.partition ∧
      ∃ v, verify u = some (decide (super.magic = MAGIC), v) := by
  unfold Addressed at hs
  have hpeek : ∀ w : Fs, w.partition = t.partition → w.peek 0 sizeofSuperblock = super.encode := fun w hw => by
    have haddr : w.partition.offset + 0 < 2 ^ 64 := by
      rw [hw, h.frame.1]
      omega
    have hdata : w.data = t.data := by
      funext p
      simp only [Driver.data, hw]
    rw [peek_eq_slice w 0 sizeofSuperblock haddr, hdata]
    exact h.super
  have hread : ∀ w : Fs, w.partition = t.partition →
      readSuperblock w = some (0, { w with superblock := super }) := fun w hw => by
    simp only [readSuperblock, run_bind, run_partitionRead, Option.bind_some, run_modify, hpeek w hw,
      decode_superblock hfits, run_ite, ne_eq, not_true_eq_false, ite_false, run_pure, neg_zero]
  refine ⟨⟨t.partition, super, -1, .empty, 0⟩, ?_, rfl, rfl, ⟨t.partition, super, -1, .empty, 0⟩, ?_⟩
  · exact congrArg (Option.map Prod.snd) (hread ⟨t.partition, ⟨0, 0, 0, 0, 0⟩, -1, .empty, 0⟩ rfl)
  · rw [verify, run_bind, hread ⟨t.partition, super, -1, .empty, 0⟩ rfl, Option.bind_some, run_bind, run_get,
      Option.bind_some, run_pure]
    simp only [true_and]

end Format

structure EmptyFs (u : Fs) : Prop where
  verified : ∃ v, verify u = some (true, v)
  startBlock : u.superblock.startBlock = u.fatBlocks + 1 ∧ u.fatBlocks + 1 < u.blockCount
  reserved : ∀ b : ℕ, b ≤ u.fatBlocks → u.fat b = UNUSABLE
  final : u.fat (u.fatBlocks + 1 : ℕ) = FINAL
  unused : ∀ b : ℕ, u.fatBlocks + 1 < b → b < u.blockCount → u.fat b = 0
  dot : ∃ e, entryAt u.data ((u.fatBlocks + 1) * u.bs) = e ∧ e.name.toStr = dotName ∧ e.isDirectory ∧
    e.len = 2 * sizeofDirEntry ∧ e.start = u.superblock.startBlock
  dotdot : ∃ e, entryAt u.data ((u.fatBlocks + 1) * u.bs + sizeofDirEntry) = e ∧ e.name.toStr = dotDotName ∧
    e.isDirectory ∧ e.len = 2 * sizeofDirEntry ∧ e.start = u.superblock.startBlock
  listed : ∃ calls v, readdir [slash] u = some ((0, calls), v) ∧ calls.map Prod.fst = [dotName, dotDotName]

/-- A fresh driver on the partition finds an empty file system. -/
def MountsEmpty (p : Partition FlatDevice) : Prop := ∃ u, mount p = some u ∧ EmptyFs u

theorem toStr_nul (l : List UInt8) : (Filename.ofBytes (0 :: l)).toStr = [] := by
  have hstr : (Filename.ofBytes (0 :: l)).str =
      0 :: (l ++ List.replicate (THORNFAT_PATH_MAX + 1) 0).take THORNFAT_PATH_MAX := rfl
  rw [Filename.toStr, hstr, List.takeWhile_cons]
  rfl

theorem entry_unnamed (m : Store) (q : ℕ) (h : m q = 0) : (entryAt m q).name.toStr = [] := by
  have hhead : slice m q 320 = 0 :: slice m (q + 1) 319 := by
    rw [slice_add m q 1 319, slice, List.range_one, List.map_singleton, Nat.add_zero, h]
    rfl
  rw [entryAt, show sizeofDirEntry = 320 from rfl, hhead, DirEntry.decode, List.take_succ_cons]
  exact toStr_nul _

theorem not_mountsEmpty {s t : Fs} (hs : Addressed s) (hlen : s.partition.length < 2 ^ 32) {block_size : ℕ}
    (h : make block_size s = some (true, t)) : ¬ MountsEmpty t.partition := by
  obtain ⟨haccept, -⟩ := make_true h
  obtain ⟨hts, hlength, -, hb, -⟩ := accepted_layout haccept
  have hformat : make block_size s = format (geometry s.partition.length block_size) (clearing s).2 := by
    rw [run_make rfl (by omega), if_neg (not_lt.mpr haccept.enough), if_neg (not_not.mpr haccept.entries),
      if_neg (not_lt.mpr haccept.two), if_neg (not_lt.mpr haccept.superblock), if_neg (not_le.mpr haccept.table)]
  obtain ⟨t', hrun, hblank⟩ := format_blank hs haccept
  obtain rfl : t' = t := congrArg Prod.snd (Option.some.inj (hrun.symm.trans (hformat.symm.trans h)))
  have hpos : 0 < s.partition.length := by
    have : 2 * block_size ≤ (tableSize (s.partition.length / block_size) block_size + 2) * block_size :=
      Nat.mul_le_mul_right _ (by omega)
    omega
  obtain ⟨u, hmount, hsuper, hpart, -⟩ := mount_blank hs hpos (geometry_fits haccept hlen) hblank
  rintro ⟨u', hmount', hempty⟩
  obtain rfl : u = u' := Option.some.inj (hmount.symm.trans hmount')
  obtain ⟨e, he, hname, -⟩ := hempty.dot
  have hq : (u.fatBlocks + 1) * u.bs =
      (tableSize (s.partition.length / block_size) block_size + 1) * block_size := by
    rw [Driver.fatBlocks, Driver.bs, hsuper]
    rfl
  have hdata : u.data = t'.data := by
    funext p
    simp only [Driver.data, hpart]
  rw [hq, hdata] at he
  rw [← he, entry_unnamed _ _ hblank.blank] at hname
  cases hname

/-- What `make` formats has its superblock in place and no root directory: the
entry a fresh driver finds at the start block has no name. -/
theorem format_leaves_no_root (s : Fs) (hs : s.partition.offset + s.partition.length ≤ 2 ^ 64)
    (hlen : s.partition.length < 2 ^ 32) (block_size : ℕ) (t : Fs) (h : make block_size s = some (true, t)) :
    ¬ MountsEmpty t.partition := not_mountsEmpty hs hlen h

def tenBlocks : Fs := ⟨⟨[], ⟨fun _ => 0⟩, 0, 6400⟩, ⟨0, 0, 0, 0, 0⟩, -1, .empty, 0⟩

theorem tenBlocks_accepted : Accepted tenBlocks.partition.length 640 := by
  constructor <;> decide

theorem format_leaves_no_root_ten : ∃ t, make 640 tenBlocks = some (true, t) ∧ ¬ MountsEmpty t.partition := by
  obtain ⟨t, ht, -⟩ := make_accepts (d := tenBlocks) (b := 640) rfl tenBlocks_accepted
  exact ⟨t, ht, format_leaves_no_root tenBlocks (by decide) (by decide) 640 t ht⟩

theorem format_not_mountable : ¬ ∀ (s : Fs) (block_size : ℕ) (t : Fs),
    s.partition.offset + s.partition.length ≤ 2 ^ 64 → s.partition.length < 2 ^ 32 →
    make block_size s = some (true, t) → MountsEmpty t.partition := by
  intro hall
  obtain ⟨t, ht, -⟩ := make_accepts (d := tenBlocks) (b := 640) rfl tenBlocks_accepted
  have hs : Addressed tenBlocks := by
    unfold Addressed
    decide
  exact not_mountsEmpty hs (by decide) ht (hall tenBlocks 640 t hs (by decide) ht)

end Thorn.FatDriver

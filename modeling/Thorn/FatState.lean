import Thorn.FatFlat
import Thorn.FatImage

set_option autoImplicit false

namespace Thorn.FatDriver
open ByteStore Paths FatTypes FatOperations FatImage

abbrev Driver.bs (s : Fs) : ℕ := s.superblock.blockSize
abbrev Driver.blockCount (s : Fs) : ℕ := s.superblock.blockCount
abbrev Driver.fatBlocks (s : Fs) : ℕ := s.superblock.fatBlocks

def Driver.image (s : Fs) : Image where
  epb := s.bs / sizeofDirEntry
  blockCount := s.blockCount
  fatBlocks := s.fatBlocks
  fat := s.fat
  entry := s.entry

/-- The superblock is one `make` computes, on a partition below 4 GiB whose
bytes have `off_t` addresses. -/
structure Geometry (s : Fs) : Prop where
  block : sizeofDirEntry ∣ s.bs
  blockSize : 2 * sizeofDirEntry ≤ s.bs
  blockCount : s.blockCount = s.partition.length / s.bs
  fatBlocks : s.fatBlocks = tableSize s.blockCount s.bs
  startBlock : s.superblock.startBlock = s.fatBlocks + 1
  inside : s.fatBlocks + 1 < s.blockCount
  length : s.partition.length < 2 ^ 32
  offset : s.partition.offset + s.partition.length ≤ 2 ^ 63

structure WellFormed (s : Fs) : Prop where
  geometry : Geometry s
  image : s.image.WellFormed
  /-- The cached root, once loaded, is the root's entry on the disk. -/
  root : s.root.start ≠ UNUSABLE → s.root = s.entry s.image.rootSlot

theorem le_tableSize (n bs : ℕ) (h : 4 ∣ bs) (hbs : 0 < bs) : 4 * n ≤ tableSize n bs * bs := by
  obtain ⟨q, rfl⟩ := h
  have hq : 4 * q / 4 = q := by omega
  unfold tableSize
  rw [hq]
  split_ifs with hn
  · omega
  · have hle := (updiv_le_iff n q (updiv n q) (by omega)).mp le_rfl
    calc 4 * n ≤ 4 * (updiv n q * q) := by omega
      _ = updiv n q * (4 * q) := by ring

namespace Geometry
variable {s : Fs}

theorem bs_pos (hg : Geometry s) : 0 < s.bs := by
  have := hg.blockSize
  simp only [sizeofDirEntry] at this
  omega

theorem image_bs (hg : Geometry s) : s.image.bs = s.bs := Nat.mul_div_cancel' hg.block

theorem epb_mul (hg : Geometry s) : 320 * s.image.epb = s.bs := hg.image_bs

theorem two_le_epb (hg : Geometry s) : 2 ≤ s.image.epb := by
  have h₁ := hg.blockSize
  have h₂ := hg.epb_mul
  simp only [sizeofDirEntry] at h₁
  omega

theorem epb_pos (hg : Geometry s) : 0 < s.image.epb := by
  have := hg.two_le_epb
  omega

theorem bytes_le (hg : Geometry s) : s.blockCount * s.bs ≤ s.partition.length := by
  rw [hg.blockCount]
  exact Nat.div_mul_le_self _ _

theorem small (hg : Geometry s) : s.blockCount * s.bs < 2 ^ 32 :=
  hg.bytes_le.trans_lt hg.length

theorem table (hg : Geometry s) : 4 * s.blockCount ≤ s.fatBlocks * s.bs := by
  have h4 : 4 ∣ s.bs := (by decide : 4 ∣ sizeofDirEntry).trans hg.block
  have h := le_tableSize s.blockCount s.bs h4 hg.bs_pos
  rwa [← hg.fatBlocks] at h

theorem block_end (hg : Geometry s) {b : ℕ} (hb : b < s.blockCount) : b * s.bs + s.bs ≤ s.partition.length := by
  have h : (b + 1) * s.bs ≤ s.blockCount * s.bs := Nat.mul_le_mul_right _ hb
  rw [Nat.succ_mul] at h
  exact h.trans hg.bytes_le

theorem block_small (hg : Geometry s) {b : ℕ} (hb : b < s.blockCount) :
    b * s.bs + s.bs < 2 ^ 32 := (hg.block_end hb).trans_lt hg.length

theorem blockCount_small (hg : Geometry s) : s.blockCount < 2 ^ 23 := by
  have h₁ := hg.small
  have h₂ := hg.blockSize
  simp only [sizeofDirEntry] at h₂
  by_contra h
  have : 2 ^ 23 * 640 ≤ s.blockCount * s.bs := Nat.mul_le_mul (by omega) h₂
  omega

theorem toInt32_block (hg : Geometry s) {b : ℕ} (hb : b < s.blockCount) : toInt32 b = b := by
  have := hg.blockCount_small
  exact toInt32_of_range _ (by omega) (by omega)

theorem mul32_block (hg : Geometry s) {b : ℕ} (hb : b < s.blockCount) : mul32 b s.bs = b * s.bs := by
  have := hg.block_small hb
  exact mul32_natCast b s.bs (by omega)

theorem no_wrap (hg : Geometry s) {p : ℕ} (hp : p ≤ s.partition.length) : s.partition.offset + p < 2 ^ 64 := by
  have := hg.offset
  omega

theorem fatOffset_eq (hg : Geometry s) {b : ℕ} (hb : b < s.blockCount) :
    fatOffset s.superblock b = s.bs + 4 * b := by
  have h₁ := hg.blockCount_small
  have h₂ := hg.block_small (b := 0) (by omega)
  rw [fatOffset, toSize_natCast b (by omega)]
  change (s.bs + b * 4) % 2 ^ 64 = s.bs + 4 * b
  omega

theorem fat_end (hg : Geometry s) {b : ℕ} (hb : b < s.blockCount) :
    s.bs + 4 * b + 4 ≤ (s.fatBlocks + 1) * s.bs := by
  have h := hg.table
  rw [Nat.add_mul, Nat.one_mul]
  omega

theorem data_start (hg : Geometry s) : (s.fatBlocks + 1) * s.bs + s.bs ≤ s.partition.length :=
  hg.block_end hg.inside

theorem fat_eq (hg : Geometry s) {b : ℕ} (hb : b < s.blockCount) :
    s.fat b = blockOfBytes (slice s.data (s.bs + 4 * b) 4) := by
  have h₁ := hg.fat_end hb
  have h₂ := hg.data_start
  rw [Driver.fat, cellAt, hg.fatOffset_eq hb]
  exact congrArg blockOfBytes (peek_eq_slice _ _ _ (hg.no_wrap (by omega)))

end Geometry

theorem fat_toInt32 (s : Fs) (b : ℤ) : toInt32 (s.fat b) = s.fat b := by
  rw [Driver.fat, cellAt]
  exact toInt32_of_range _ (toInt32_range _).1 (toInt32_range _).2

theorem image_fat (s : Fs) : s.image.fat = s.fat := rfl

structure SameFrame (s t : Fs) : Prop where
  superblock : t.superblock = s.superblock
  offset : t.partition.offset = s.partition.offset
  length : t.partition.length = s.partition.length

namespace SameFrame
variable {s t u : Fs}

@[simp] theorem refl (s : Fs) : SameFrame s s := ⟨rfl, rfl, rfl⟩

theorem trans (h : SameFrame s t) (h' : SameFrame t u) : SameFrame s u :=
  ⟨h'.superblock.trans h.superblock, h'.offset.trans h.offset, h'.length.trans h.length⟩

theorem geometry (h : SameFrame s t) (hg : Geometry s) : Geometry t := by
  obtain ⟨h₁, h₂, h₃⟩ := h
  constructor <;> simp only [Driver.bs, Driver.blockCount, Driver.fatBlocks, h₁, h₂, h₃]
  exacts [hg.block, hg.blockSize, hg.blockCount, hg.fatBlocks, hg.startBlock, hg.inside, hg.length,
    hg.offset]

theorem poke (s : Fs) (p : ℕ) (l : List UInt8) : SameFrame s (s.poke p l) := ⟨rfl, rfl, rfl⟩
theorem putFAT (s : Fs) (v b : ℤ) : SameFrame s (s.putFAT v b) := ⟨rfl, rfl, rfl⟩
theorem addFree (s : Fs) (n : ℤ) : SameFrame s (s.addFree n) := ⟨rfl, rfl, rfl⟩

end SameFrame

def Driver.IsSlot (s : Fs) (k : ℕ) : Prop := s.image.IsData (k / s.image.epb)

namespace SameFrame
variable {s t : Fs}

theorem bs (h : SameFrame s t) : t.bs = s.bs := congrArg Superblock.blockSize h.superblock
theorem blockCount (h : SameFrame s t) : t.blockCount = s.blockCount :=
  congrArg Superblock.blockCount h.superblock
theorem fatBlocks (h : SameFrame s t) : t.fatBlocks = s.fatBlocks :=
  congrArg Superblock.fatBlocks h.superblock

theorem epb (h : SameFrame s t) : t.image.epb = s.image.epb := congrArg (· / sizeofDirEntry) h.bs

theorem isData (h : SameFrame s t) {b : ℕ} : t.image.IsData b ↔ s.image.IsData b := by
  have h₁ : t.image.fatBlocks = s.image.fatBlocks := h.fatBlocks
  have h₂ : t.image.blockCount = s.image.blockCount := h.blockCount
  simp only [Image.IsData, h₁, h₂]

theorem isSlot (h : SameFrame s t) {k : ℕ} : t.IsSlot k ↔ s.IsSlot k := by
  rw [Driver.IsSlot, Driver.IsSlot, h.epb, h.isData]

end SameFrame

def Driver.putEntry (s : Fs) (k : ℕ) (e : DirEntry) : Fs := s.poke (320 * k) e.encode

section Frame
variable {s : Fs}

theorem slot_range (hg : Geometry s) (k : ℕ) :
    k / s.image.epb * s.bs ≤ 320 * k ∧ 320 * k + 320 ≤ k / s.image.epb * s.bs + s.bs := by
  have hm := Nat.mod_lt k hg.epb_pos
  have hd : s.image.epb * (k / s.image.epb) + k % s.image.epb = k := Nat.div_add_mod k s.image.epb
  have hb : k / s.image.epb * s.bs = 320 * (s.image.epb * (k / s.image.epb)) := by
    rw [← hg.epb_mul]
    ring
  have := hg.epb_mul
  omega

theorem data_range (hg : Geometry s) {b : ℕ} (hb : s.image.IsData b) :
    (s.fatBlocks + 1) * s.bs ≤ b * s.bs ∧ b * s.bs + s.bs ≤ s.partition.length :=
  ⟨Nat.mul_le_mul_right _ hb.1, hg.block_end hb.2⟩

theorem slice_poke (hg : Geometry s) {p q n : ℕ} {l : List UInt8} (hp : p ≤ s.partition.length)
    (h : q + n ≤ p ∨ p + l.length ≤ q) : slice (s.poke p l).data q n = slice s.data q n := by
  rw [poke_data _ _ _ (hg.no_wrap hp), slice_patch_disjoint _ _ _ _ _ h]

theorem poke_fat (hg : Geometry s) {p : ℕ} {l : List UInt8} (hp : (s.fatBlocks + 1) * s.bs ≤ p)
    (hq : p ≤ s.partition.length) {b : ℕ} (hb : b < s.blockCount) : (s.poke p l).fat b = s.fat b := by
  have he := hg.fat_end hb
  have hg' := (SameFrame.poke s p l).geometry hg
  rw [hg'.fat_eq hb, hg.fat_eq hb]
  exact congrArg blockOfBytes (slice_poke hg hq (.inl (by change s.bs + 4 * b + 4 ≤ p; omega)))

theorem poke_entry (hg : Geometry s) {p k : ℕ} {l : List UInt8} (hp : p ≤ s.partition.length)
    (h : 320 * k + 320 ≤ p ∨ p + l.length ≤ 320 * k) : (s.poke p l).entry k = s.entry k := by
  rw [entry_eq, entry_eq, slice_poke hg hp h]

theorem poke_block (hg : Geometry s) {p b : ℕ} {l : List UInt8} (hp : p ≤ s.partition.length)
    (h : b * s.bs + s.bs ≤ p ∨ p + l.length ≤ b * s.bs) : (s.poke p l).block b = s.block b :=
  slice_poke hg hp h

theorem putFAT_slice (hg : Geometry s) {b : ℕ} (hb : b < s.blockCount) (v : ℤ) {q n : ℕ}
    (hq : (s.fatBlocks + 1) * s.bs ≤ q) : slice (s.putFAT v b).data q n = slice s.data q n := by
  have he := hg.fat_end hb
  have hd := hg.data_start
  rw [Driver.putFAT, hg.fatOffset_eq hb]
  exact slice_poke hg (by omega) (.inr (by rw [blockBytes_length]; omega))

theorem putFAT_fat (hg : Geometry s) {b c : ℕ} (hb : b < s.blockCount) (hc : c < s.blockCount)
    (v : ℤ) : (s.putFAT v b).fat c = if c = b then toInt32 v else s.fat c := by
  have he := hg.fat_end hb
  have hd := hg.data_start
  have hg' := (SameFrame.putFAT s v b).geometry hg
  rw [hg'.fat_eq hc]
  change blockOfBytes (slice (s.putFAT v b).data (s.bs + 4 * c) 4) = _
  rw [Driver.putFAT, hg.fatOffset_eq hb, poke_data _ _ _ (hg.no_wrap (by omega))]
  split_ifs with h
  · subst h
    have hs := slice_patch_self s.data (s.bs + 4 * c) (blockBytes v)
    rw [blockBytes_length] at hs
    rw [hs, blockOfBytes_blockBytes]
  · rw [hg.fat_eq hc, slice_patch_disjoint _ _ _ _ _ (by rw [blockBytes_length]; omega)]

theorem putFAT_entry (hg : Geometry s) {b k : ℕ} (hb : b < s.blockCount) (v : ℤ)
    (hk : s.IsSlot k) : (s.putFAT v b).entry k = s.entry k := by
  rw [entry_eq, entry_eq, putFAT_slice hg hb v ((data_range hg hk).1.trans (slot_range hg k).1)]

theorem putFAT_block (hg : Geometry s) {b c : ℕ} (hb : b < s.blockCount) (v : ℤ)
    (hc : s.image.IsData c) : (s.putFAT v b).block c = s.block c :=
  putFAT_slice hg hb v (data_range hg hc).1

theorem slot_bound (hg : Geometry s) {k : ℕ} (hk : s.IsSlot k) :
    (s.fatBlocks + 1) * s.bs ≤ 320 * k ∧ 320 * k + 320 ≤ s.partition.length := by
  have h₁ := slot_range hg k
  have h₂ := data_range hg hk
  omega

theorem putEntry_entry (hg : Geometry s) {k : ℕ} (hk : s.IsSlot k) (e : DirEntry) (j : ℕ) :
    (s.putEntry k e).entry j = if j = k then e else s.entry j := by
  have hb := slot_bound hg hk
  split_ifs with h
  · subst h
    have hs := slice_patch_self s.data (320 * j) e.encode
    rw [DirEntry.encode_length] at hs
    rw [entry_eq, Driver.putEntry, poke_data _ _ _ (hg.no_wrap (by omega)), hs,
      DirEntry.decode_encode]
  · exact poke_entry hg (by omega) (by rw [DirEntry.encode_length]; omega)

theorem putEntry_fat (hg : Geometry s) {k : ℕ} (hk : s.IsSlot k) (e : DirEntry) {b : ℕ}
    (hb : b < s.blockCount) : (s.putEntry k e).fat b = s.fat b := by
  have h := slot_bound hg hk
  exact poke_fat hg h.1 (by omega) hb

theorem putEntry_block (hg : Geometry s) {k : ℕ} (hk : s.IsSlot k) (e : DirEntry) {b : ℕ}
    (hb : k / s.image.epb ≠ b) : (s.putEntry k e).block b = s.block b := by
  have h₁ := slot_range hg k
  have h₂ := slot_bound hg hk
  have h₃ := block_apart (w := s.bs) hb
  exact poke_block hg (by omega) (by rw [DirEntry.encode_length]; omega)

end Frame

end Thorn.FatDriver

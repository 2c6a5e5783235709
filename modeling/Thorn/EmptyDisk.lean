import Thorn.FatSample
import Thorn.RootCopies
import Thorn.TreeNames

set_option autoImplicit false

/-!
# Empty disks

Disks of twelve blocks with nothing but a root directory, in block 2: its two
copies fill a block of 640 bytes, and leave room for one entry in 960 bytes.
-/
namespace Thorn.FatDriver
open ByteStore Paths FatTypes FatOperations FatImage LinkedChain

/-- No block is in use but the root's, and the root has nothing but its two copies. -/
structure Bare (s : Fs) : Prop where
  geometry : Geometry s
  unloaded : s.root.start = UNUSABLE
  reserved : ∀ b : ℕ, b ≤ s.fatBlocks → s.fat b = UNUSABLE
  last : s.fat (s.fatBlocks + 1 : ℕ) = FINAL
  free : ∀ b : ℕ, s.fatBlocks + 1 < b → b < s.blockCount → s.fat b = 0
  directory : (s.entry s.image.rootSlot).isDirectory
  start : (s.entry s.image.rootSlot).start = s.image.startBlock
  len : (s.entry s.image.rootSlot).len = 2 * sizeofDirEntry
  dot : (s.entry s.image.rootSlot).name.toStr = dotName
  copy : s.entry (s.image.rootSlot + 1) = (s.entry s.image.rootSlot).setName dotDotName

namespace Bare
variable {s : Fs} (h : Bare s)
include h

theorem count : s.image.count s.image.rootSlot = 2 := by
  rw [Image.count, show (s.image.entry s.image.rootSlot).len = 2 * sizeofDirEntry from h.len]
  rfl

theorem unlisted (c : List ℕ) :
    (s.image.slotsIn c (s.image.count s.image.rootSlot)).drop (s.image.copies s.image.rootSlot) = [] := by
  apply List.drop_eq_nil_of_le
  rw [h.count, Image.copies, if_pos rfl, Image.slotsIn, List.length_map, List.length_range]

theorem catalogue : s.image.Catalogue (· = s.image.rootSlot) fun _ => [s.image.startBlock] where
  epb := h.geometry.two_le_epb
  table := by
    rw [h.geometry.image_bs]
    exact h.geometry.table
  inside := h.geometry.inside
  small := by
    rw [h.geometry.image_bs]
    exact h.geometry.small
  reserved b hb := h.reserved b hb
  root := rfl
  closed p hp hd k hk _ := by
    subst hp
    rw [h.unlisted] at hk
    cases hk
  reached k hk := hk ▸ .root
  owns k hk := by
    subst hk
    refine ⟨⟨s.image.startBlock, h.start, .last h.last⟩, fun b hb => ?_⟩
    rw [List.mem_singleton.mp hb]
    exact ⟨Nat.lt_succ_self _, h.geometry.inside⟩
  size k hk := by
    subst hk
    have hsmall : updiv (2 * sizeofDirEntry) s.image.bs ≤ 1 := by
      rw [updiv_le_iff _ _ _ (h.geometry.image_bs ▸ h.geometry.bs_pos), h.geometry.image_bs, Nat.one_mul]
      exact h.geometry.blockSize
    rw [show (s.image.entry s.image.rootSlot).len = 2 * sizeofDirEntry from h.len, Image.blocksFor,
      max_eq_left hsmall, List.length_singleton]
  disjoint k l hk hl hne := absurd (hk.trans hl.symm) hne
  unowned b hb hno := by
    have hne : b ≠ s.image.startBlock := fun he => hno s.image.rootSlot rfl (List.mem_singleton.mpr he)
    have hlow : s.fatBlocks < b := hb.1
    have hstart : s.image.startBlock = s.fatBlocks + 1 := rfl
    exact h.free b (by omega) hb.2
  directory k hk _ := by
    subst hk
    rw [show (s.image.entry s.image.rootSlot).len = 2 * sizeofDirEntry from h.len]
    decide
  root_directory := h.directory
  root_start := h.start
  root_len := h.len.ge
  dot := h.dot
  root_dotdot := by
    rw [show s.image.entry (s.image.rootSlot + 1) = _ from h.copy]
    exact Filename.ofBytes_toStr dotDotName (by decide) (by decide)
  dotdot k hk hr _ := absurd hk hr

theorem wellFormed : WellFormed s := ⟨h.geometry, h.catalogue.wellFormed, fun hroot => absurd h.unloaded hroot⟩

theorem live_iff (k : ℕ) : s.image.Live k ↔ k = s.image.rootSlot := h.catalogue.live_iff k

theorem not_child {p k : ℕ} (hp : s.image.Live p) : k ∉ (s.image.slots p).drop (s.image.copies p) := by
  obtain rfl := (h.live_iff p).mp hp
  rw [Image.slots, h.unlisted]
  exact List.not_mem_nil

theorem tidy : s.image.Tidy := fun _ hp _ _ hk => absurd hk (h.not_child hp)

theorem unique : s.image.UniqueNames := fun _ _ _ hp hk => absurd hk.2.1 (h.not_child hp)

theorem free_iff {b : ℕ} (hb : b < s.blockCount) : s.fat b = 0 ↔ s.fatBlocks + 1 < b := by
  refine ⟨fun hzero => ?_, fun hlate => h.free b hlate hb⟩
  by_contra hearly
  rcases Nat.lt_or_eq_of_le (not_lt.mp hearly) with hlow | rfl
  · rw [h.reserved b (Nat.le_of_lt_succ hlow)] at hzero
    exact absurd hzero (by decide)
  · rw [h.last] at hzero
    exact absurd hzero (by decide)

theorem freeList : s.freeList = (List.range s.blockCount).filter fun b => s.fatBlocks + 1 < b :=
  List.filter_congr fun _ hb => decide_eq_decide.mpr (h.free_iff (List.mem_range.mp hb))

theorem lookup_missing {path name : Str} (hpath : pathNames path = [name]) (hname : Image.Dotless [name]) :
    s.lookup path = .error (-ENOENT) := by
  have hw := h.wellFormed.image
  have hlen : (s.image.entry s.image.rootSlot).len = 2 * sizeofDirEntry := h.len
  have hwalk : s.image.Walkable s.image.rootSlot := Image.walkable_iff.mpr ⟨by rw [hlen]; decide, h.directory⟩
  rw [Driver.lookup, hpath, Image.resolve, if_pos hwalk]
  cases hk : s.image.findSlot s.image.rootSlot name with
  | none => rfl
  | some k => exact absurd (hw.findSlot_child .root hwalk hname hk).2.1 (h.not_child .root)

end Bare
end Thorn.FatDriver

namespace Thorn.FatSample
open ByteStore Paths FatTypes FatDriver FatOperations FatImage

def emptyCells : List ℤ := [-1, -1, -2, 0, 0, 0, 0, 0, 0, 0, 0, 0]

def emptyEntries :
    List (ℕ × DirEntry) := [(4, item dotName .Directory 2 640), (5, item dotDotName .Directory 2 640)]

def emptyDisk : Fs := storeAll (fillFrom blank 0 emptyCells) emptyEntries

def wideBlank : Fs where
  partition := ⟨[], ⟨fun _ => 0⟩, 0, 11520⟩
  superblock := ⟨MAGIC, 12, 1, 960, 2⟩
  blocksFree := -1
  root := .empty
  writeOffset := 0

def wideEntries :
    List (ℕ × DirEntry) := [(6, item dotName .Directory 2 640), (7, item dotDotName .Directory 2 640)]

def wideDisk : Fs := storeAll (fillFrom wideBlank 0 emptyCells) wideEntries

theorem wideBlank_geometry : Geometry wideBlank := by
  constructor <;> decide

section Filled
variable {s : Fs} (hg : Geometry s) (hcount : s.blockCount = 12) (hfat : s.fatBlocks = 1) {l : List (ℕ × DirEntry)}
  (hl : l = [(s.image.rootSlot, item dotName .Directory 2 640),
    (s.image.rootSlot + 1, item dotDotName .Directory 2 640)])

include hg hl in
theorem copies_slots : ∀ p ∈ l, s.IsSlot p.1 := by
  have hepb := hg.two_le_epb
  intro p hp
  rw [hl] at hp
  simp only [List.mem_cons, List.not_mem_nil, or_false] at hp
  rcases hp with rfl | rfl
  · exact root_isSlot hg (i := 0) (by omega)
  · exact root_isSlot hg hepb

include hg hcount hfat hl in
theorem filled_bare (hroot : s.root.start = UNUSABLE) : Bare (storeAll (fillFrom s 0 emptyCells) l) := by
  have hframe := fillFrom_frame s 0 emptyCells
  have hfilled := hframe.geometry hg
  have hslots : ∀ p ∈ l, (fillFrom s 0 emptyCells).IsSlot p.1 := fun p hp =>
    hframe.isSlot.mpr (copies_slots hg hl p hp)
  have hall := hframe.trans (storeAll_frame (fillFrom s 0 emptyCells) l)
  have hrs : (storeAll (fillFrom s 0 emptyCells) l).image.rootSlot = s.image.rootSlot := hall.rootSlot
  have hcells : ∀ b : ℕ, b < 12 →
      (storeAll (fillFrom s 0 emptyCells) l).fat b = toInt32 (emptyCells.getD b 0) := by
    intro b hb
    rw [storeAll_fat hfilled l hslots (by rw [hframe.blockCount, hcount]; exact hb),
      fillFrom_fat hg emptyCells 0 b (by rw [hcount]; decide) (by rw [hcount]; exact hb),
      if_pos ⟨Nat.zero_le _, (Nat.zero_add _).symm ▸ hb⟩, Nat.sub_zero]
  have hdot : (storeAll (fillFrom s 0 emptyCells) l).entry s.image.rootSlot =
      item dotName .Directory 2 640 := by
    rw [storeAll_entry hfilled l hslots, hl]
    simp
  have hdotdot : (storeAll (fillFrom s 0 emptyCells) l).entry (s.image.rootSlot + 1) =
      item dotDotName .Directory 2 640 := by
    rw [storeAll_entry hfilled l hslots, hl]
    simp
  refine ⟨hall.geometry hg, ?_, ?_, ?_, ?_, ?_, ?_, ?_, ?_, ?_⟩
  · subst hl
    exact hroot
  · intro b hb
    rw [hall.fatBlocks, hfat] at hb
    rw [hcells b (by omega)]
    interval_cases b <;> decide
  · rw [hall.fatBlocks, hfat, hcells _ (by decide)]
    decide
  · intro b hlow hb
    rw [hall.fatBlocks, hfat] at hlow
    rw [hall.blockCount, hcount] at hb
    rw [hcells b hb]
    interval_cases b <;> decide
  · rw [hrs, hdot]
    decide
  · have hstart : (storeAll (fillFrom s 0 emptyCells) l).image.startBlock = 2 :=
      congrArg (· + 1) (hall.fatBlocks.trans hfat)
    rw [hrs, hdot, hstart]
    rfl
  · rw [hrs, hdot]
    rfl
  · rw [hrs, hdot]
    exact Filename.ofBytes_toStr dotName (by decide) (by decide)
  · rw [hrs, hdotdot, hdot]
    rfl

end Filled

theorem emptyDisk_bare : Bare emptyDisk := filled_bare blank_geometry rfl rfl rfl rfl

theorem emptyDisk_frame : SameFrame blank emptyDisk :=
  (fillFrom_frame blank 0 emptyCells).trans (storeAll_frame _ _)

theorem emptyDisk_slot : emptyDisk.image.rootSlot = 4 := emptyDisk_frame.rootSlot

theorem emptyDisk_freeList : emptyDisk.freeList = [3, 4, 5, 6, 7, 8, 9, 10, 11] := by
  rw [emptyDisk_bare.freeList, emptyDisk_frame.blockCount, emptyDisk_frame.fatBlocks]
  decide

theorem wideDisk_bare : Bare wideDisk := filled_bare wideBlank_geometry rfl rfl rfl rfl

theorem wideDisk_frame : SameFrame wideBlank wideDisk :=
  (fillFrom_frame wideBlank 0 emptyCells).trans (storeAll_frame _ _)

theorem wideDisk_freeList : wideDisk.freeList = [3, 4, 5, 6, 7, 8, 9, 10, 11] := by
  rw [wideDisk_bare.freeList, wideDisk_frame.blockCount, wideDisk_frame.fatBlocks]
  decide

end Thorn.FatSample

import Thorn.FatLookup

set_option autoImplicit false

/-!
# A small disk

Twelve blocks of 640 bytes. The root directory (blocks 2, 3, 7) holds the files
`f` (blocks 4, 6) and `g` (block 5), the directory `d` (block 8) and a freed
slot; `d` is full and holds the file `h` (block 9). Blocks 10 and 11 are free.
-/
namespace Thorn.FatSample
open ByteStore Paths FatTypes FatDriver FatOperations FatImage

def blank : Fs where
  partition := ⟨[], ⟨fun _ => 0⟩, 0, 7680⟩
  superblock := ⟨MAGIC, 12, 1, 640, 2⟩
  blocksFree := -1
  root := .empty
  writeOffset := 0

def fillFrom (s : Fs) (i : ℕ) : List ℤ → Fs
  | [] => s
  | v :: vs => fillFrom (s.putFAT v i) (i + 1) vs

def storeAll (s : Fs) : List (ℕ × DirEntry) → Fs
  | [] => s
  | (k, e) :: l => (storeAll s l).putEntry k e

def item (name : Str) (type : FileType) (start : ℤ) (length : ℕ) : DirEntry where
  name := .ofBytes name
  times := .zero
  length := BitVec.ofNat 64 length
  startBlock := BitVec.ofInt 32 start
  type := type.code
  modes := 0

def cells : List ℤ := [-1, -1, 3, 7, 6, -2, -2, -2, -2, -2, 0, 0]

def nameF : Str := [102]
def nameG : Str := [103]
def nameD : Str := [100]
def nameH : Str := [104]

def entries : List (ℕ × DirEntry) :=
  [(4, item dotName .Directory 2 1920), (5, item dotDotName .Directory 2 1920),
    (6, item nameF .File 4 1280), (7, item nameG .File 5 1), (14, item nameD .Directory 8 640),
    (15, item [] .File 0 0), (16, item dotDotName .Directory 2 1920), (17, item nameH .File 9 5)]

/-- The disk before its table and entries are written: `g` holds one byte. -/
def data : Fs := blank.poke 3200 [1]

def disk : Fs := storeAll (fillFrom data 0 cells) entries

def lookupEntry (l : List (ℕ × DirEntry)) (k : ℕ) : DirEntry :=
  ((l.find? fun p => p.1 = k).map Prod.snd).getD (data.entry k)

def picture : Image where
  epb := 2
  blockCount := 12
  fatBlocks := 1
  fat b := cells.getD b.toNat 0
  entry := lookupEntry entries

theorem blank_geometry : Geometry blank := by
  constructor <;> decide

theorem fillFrom_frame (s : Fs) (i : ℕ) (vs : List ℤ) : SameFrame s (fillFrom s i vs) := by
  induction vs generalizing s i with
  | nil => exact .refl s
  | cons v vs ih => exact (SameFrame.putFAT s v i).trans (ih _ _)

theorem storeAll_frame (s : Fs) (l : List (ℕ × DirEntry)) : SameFrame s (storeAll s l) := by
  induction l with
  | nil => exact .refl s
  | cons p l ih => exact ih.trans (SameFrame.poke _ _ _)

theorem fillFrom_fat {s : Fs} (hg : Geometry s) (vs : List ℤ) (i b : ℕ) (hi : i + vs.length ≤ s.blockCount)
    (hb : b < s.blockCount) :
    (fillFrom s i vs).fat b = if i ≤ b ∧ b < i + vs.length then toInt32 (vs.getD (b - i) 0) else s.fat b := by
  induction vs generalizing s i with
  | nil => rw [if_neg (by simp only [List.length_nil]; omega), fillFrom]
  | cons v vs ih =>
    simp only [List.length_cons] at hi ⊢
    rw [fillFrom, ih ((SameFrame.putFAT s v i).geometry hg) (i + 1) (by change _ ≤ s.blockCount; omega) hb,
      putFAT_fat hg (by omega) hb]
    by_cases hbi : b = i
    · subst hbi
      rw [if_neg (by omega), if_pos rfl, if_pos (by omega), Nat.sub_self]
      rfl
    · rw [if_neg hbi]
      by_cases hin : i + 1 ≤ b ∧ b < i + 1 + vs.length
      · rw [if_pos hin, if_pos (by omega), show b - i = b - (i + 1) + 1 by omega, List.getD_cons_succ]
      · rw [if_neg hin, if_neg (by omega)]

theorem fillFrom_entry {s : Fs} (hg : Geometry s) (vs : List ℤ) (i : ℕ) (hi : i + vs.length ≤ s.blockCount)
    {k : ℕ} (hk : s.IsSlot k) : (fillFrom s i vs).entry k = s.entry k := by
  induction vs generalizing s i with
  | nil => rfl
  | cons v vs ih =>
    simp only [List.length_cons] at hi
    have hframe := SameFrame.putFAT s v i
    rw [fillFrom, ih (hframe.geometry hg) (i + 1) (by change _ ≤ s.blockCount; omega)
      (hframe.isSlot.mpr hk), putFAT_entry hg (by omega) v hk]

theorem storeAll_entry {s : Fs} (hg : Geometry s) (l : List (ℕ × DirEntry)) (hl : ∀ p ∈ l, s.IsSlot p.1)
    (j : ℕ) : (storeAll s l).entry j = ((l.find? fun p => p.1 = j).map Prod.snd).getD (s.entry j) := by
  induction l with
  | nil => rfl
  | cons p l ih =>
    obtain ⟨k, e⟩ := p
    have hframe := storeAll_frame s l
    have hslot : (storeAll s l).IsSlot k := hframe.isSlot.mpr (hl (k, e) (by simp))
    rw [storeAll, putEntry_entry (hframe.geometry hg) hslot, ih fun p hp => hl p (by simp [hp])]
    by_cases hj : j = k
    · simp [hj]
    · simp [hj, Ne.symm hj]

theorem storeAll_fat {s : Fs} (hg : Geometry s) (l : List (ℕ × DirEntry)) (hl : ∀ p ∈ l, s.IsSlot p.1)
    {b : ℕ} (hb : b < s.blockCount) : (storeAll s l).fat b = s.fat b := by
  induction l with
  | nil => rfl
  | cons p l ih =>
    obtain ⟨k, e⟩ := p
    have hframe := storeAll_frame s l
    have hslot : (storeAll s l).IsSlot k := hframe.isSlot.mpr (hl (k, e) (by simp))
    have hb' : b < (storeAll s l).blockCount := hframe.blockCount ▸ hb
    rw [storeAll, putEntry_fat (hframe.geometry hg) hslot e hb', ih fun p hp => hl p (by simp [hp])]

def liveSlots : List ℕ := [4, 6, 7, 14, 17]

def chains : ℕ → List ℕ
  | 4 => [2, 3, 7]
  | 6 => [4, 6]
  | 7 => [5]
  | 14 => [8]
  | 17 => [9]
  | _ => []

theorem data_frame : SameFrame blank data := SameFrame.poke _ _ _

theorem data_geometry : Geometry data := data_frame.geometry blank_geometry

theorem data_bytes (p : ℕ) (hp : p ≠ 3200) : data.data p = 0 := by
  rw [data, poke_data _ _ _ (by decide), patch_outside _ _ _ _ (by simp only [List.length_singleton]; omega)]
  rfl

theorem data_one : data.data 3200 = 1 := by
  rw [data, poke_data _ _ _ (by decide)]
  exact patch_inside blank.data 3200 [1] 0 (by decide)

theorem slice_zero_bytes (p n : ℕ) (hp : p + n ≤ 3200 ∨ 3200 < p) :
    slice data.data p n = List.replicate n 0 := by
  apply List.ext_getElem (by simp)
  intro i h₁ h₂
  simp only [slice_length] at h₁
  simp only [slice, List.getElem_map, List.getElem_range, List.getElem_replicate]
  exact data_bytes _ (by omega)

theorem data_start (k : ℕ) : (data.entry k).start = 0 := by
  have hs : field (slice data.data (320 * k) 320) 288 4 = leNat (List.replicate 4 0) := by
    rw [field, slice_drop_take _ _ _ _ _ (by omega), slice_zero_bytes _ _ (by omega)]
  have hz : leNat (List.replicate 4 0) = 0 := by decide
  rw [hz] at hs
  simp only [entry_eq, DirEntry.decode, DirEntry.start, hs]
  rfl

theorem entries_slots : ∀ p ∈ entries, data.IsSlot p.1 := by
  have h : ∀ k ∈ entries.map Prod.fst, data.IsSlot k := by
    intro k hk
    simp only [entries, List.map_cons, List.map_nil, List.mem_cons, List.not_mem_nil, or_false] at hk
    rcases hk with rfl | rfl | rfl | rfl | rfl | rfl | rfl | rfl <;> exact ⟨by decide, by decide⟩
  exact fun p hp => h p.1 (List.mem_map_of_mem hp)

theorem disk_frame : SameFrame data disk := (fillFrom_frame data 0 cells).trans (storeAll_frame _ _)

theorem disk_geometry : Geometry disk := disk_frame.geometry data_geometry

theorem filled_geometry : Geometry (fillFrom data 0 cells) :=
  (fillFrom_frame data 0 cells).geometry data_geometry

theorem filled_slots : ∀ p ∈ entries, (fillFrom data 0 cells).IsSlot p.1 := fun p hp =>
  (fillFrom_frame data 0 cells).isSlot.mpr (entries_slots p hp)

theorem disk_fat {b : ℕ} (hb : b < 12) : disk.fat b = picture.fat b := by
  have hb' : b < (fillFrom data 0 cells).blockCount :=
    (fillFrom_frame data 0 cells).blockCount ▸ (show b < data.blockCount from hb)
  rw [disk, storeAll_fat filled_geometry entries filled_slots hb',
    fillFrom_fat data_geometry cells 0 b (by decide) hb, if_pos ⟨Nat.zero_le _, by simpa [cells] using hb⟩]
  interval_cases b <;> rfl

theorem disk_entry {k : ℕ} (hk : data.IsSlot k) : disk.entry k = picture.entry k := by
  rw [disk, storeAll_entry filled_geometry entries filled_slots,
    fillFrom_entry data_geometry cells 0 (by decide) hk]
  rfl

theorem entries_start : ∀ p ∈ entries, 0 ≤ p.2.start ∧ p.2.start < 12 := by decide

theorem picture_start (k : ℕ) : ∃ b : ℕ, b < 12 ∧ (picture.entry k).start = b := by
  have h : 0 ≤ (lookupEntry entries k).start ∧ (lookupEntry entries k).start < 12 := by
    unfold lookupEntry
    cases hf : entries.find? fun p => p.1 = k with
    | none =>
      rw [Option.map_none, Option.getD_none, data_start]
      omega
    | some p => exact entries_start p (List.mem_of_find?_eq_some hf)
  exact ⟨(lookupEntry entries k).start.toNat, by omega, (Int.toNat_of_nonneg h.1).symm⟩

theorem disk_free {k : ℕ} (hk : data.IsSlot k) :
    disk.image.free (disk.image.entry k) = picture.free (picture.entry k) := by
  have he : disk.image.entry k = picture.entry k := disk_entry hk
  obtain ⟨b, hb, hs⟩ := picture_start k
  rw [he, Image.free, Image.free, hs, image_fat, disk_fat hb]

theorem disk_agree : picture.Agree disk.image where
  epb := disk_frame.epb
  blockCount := disk_frame.blockCount
  fatBlocks := disk_frame.fatBlocks
  fat b hb := by
    rw [image_fat]
    exact disk_fat hb
  entry _ hk := disk_entry hk
  free _ hk := disk_free hk

theorem chain_root : LinkedChain.Chain picture.next picture.Final 2 [2, 3, 7] :=
  .link (by decide) (.link (by decide) (.last (by unfold Image.Final; decide)))

theorem chain_f : LinkedChain.Chain picture.next picture.Final 4 [4, 6] :=
  .link (by decide) (.last (by unfold Image.Final; decide))

theorem chain_one (b : ℕ) (h : picture.fat b = FINAL) : LinkedChain.Chain picture.next picture.Final b [b] :=
  .last h

theorem picture_live : ∀ k ∈ liveSlots, picture.Live k := by
  have hr : picture.Live 4 := .root
  have hc : picture.chain 4 = [2, 3, 7] := by decide
  have hchild : ∀ k ∈ [6, 7, 14], picture.Child 4 k := fun k hk => by
    have hd : (picture.slots 4).drop (picture.copies 4) = [6, 7, 14, 15] := by decide
    refine ⟨by decide, hd ▸ ?_, ?_⟩
    · simp only [List.mem_cons, List.not_mem_nil, or_false] at hk ⊢
      omega
    · simp only [List.mem_cons, List.not_mem_nil, or_false] at hk
      rcases hk with rfl | rfl | rfl <;> decide
  have h14 : picture.Live 14 := .child hr (hchild 14 (by simp))
  have h17 : picture.Live 17 := .child h14 ⟨by decide, by decide, by decide⟩
  intro k hk
  simp only [liveSlots, List.mem_cons, List.not_mem_nil, or_false] at hk
  rcases hk with rfl | rfl | rfl | rfl | rfl
  exacts [hr, .child hr (hchild 6 (by simp)), .child hr (hchild 7 (by simp)), h14, h17]

theorem picture_catalogue : picture.Catalogue (· ∈ liveSlots) chains where
  epb := by decide
  table := by decide
  inside := by decide
  small := by decide
  reserved b hb := by
    change b ≤ 1 at hb
    interval_cases b <;> decide
  root := by decide
  closed p hp hd k hk hf := by
    simp only [liveSlots, List.mem_cons, List.not_mem_nil, or_false] at hp
    rcases hp with rfl | rfl | rfl | rfl | rfl
    · have hl : (picture.slotsIn (chains 4) (picture.count 4)).drop (picture.copies 4) = [6, 7, 14, 15] := by
        decide
      rw [hl] at hk
      simp only [List.mem_cons, List.not_mem_nil, or_false] at hk
      rcases hk with rfl | rfl | rfl | rfl
      · decide
      · decide
      · decide
      · revert hf
        decide
    · exact absurd hd (by decide)
    · exact absurd hd (by decide)
    · have hl : (picture.slotsIn (chains 14) (picture.count 14)).drop (picture.copies 14) = [17] := by
        decide
      rw [hl] at hk
      obtain rfl := List.mem_singleton.mp hk
      decide
    · exact absurd hd (by decide)
  reached := picture_live
  owns k hk := by
    simp only [liveSlots, List.mem_cons, List.not_mem_nil, or_false] at hk
    rcases hk with rfl | rfl | rfl | rfl | rfl
    · exact ⟨⟨2, by decide, chain_root⟩, by unfold Image.IsData; decide⟩
    · exact ⟨⟨4, by decide, chain_f⟩, by unfold Image.IsData; decide⟩
    · exact ⟨⟨5, by decide, chain_one 5 (by decide)⟩, by unfold Image.IsData; decide⟩
    · exact ⟨⟨8, by decide, chain_one 8 (by decide)⟩, by unfold Image.IsData; decide⟩
    · exact ⟨⟨9, by decide, chain_one 9 (by decide)⟩, by unfold Image.IsData; decide⟩
  size := by decide
  disjoint := by
    have h : ∀ k ∈ liveSlots, ∀ l ∈ liveSlots, k ≠ l → ∀ b ∈ chains k, b ∉ chains l := by decide
    exact fun k l hk hl hne b hbk hbl => h k hk l hl hne b hbk hbl
  unowned b hb hno := by
    obtain ⟨h₁, h₂⟩ := hb
    change 1 < b at h₁
    change b < 12 at h₂
    have h : ∀ b < 12, 1 < b → (∀ k ∈ liveSlots, b ∉ chains k) → picture.fat b = 0 := by decide
    exact h b h₂ h₁ hno
  directory := by decide
  root_directory := by decide
  root_start := by decide
  root_len := by decide
  dot := Filename.ofBytes_toStr dotName (by decide) (by decide)
  root_dotdot := Filename.ofBytes_toStr dotDotName (by decide) (by decide)
  dotdot k hk hr hd := by
    have h : ∀ k ∈ liveSlots, k ≠ picture.rootSlot → (picture.entry k).isDirectory →
        picture.slotAt (chains k) 0 = 16 := by decide
    rw [h k hk hr hd]
    exact Filename.ofBytes_toStr dotDotName (by decide) (by decide)

theorem disk_wellFormed : WellFormed disk where
  geometry := disk_geometry
  image := disk_agree.wellFormed picture_catalogue.wellFormed
  root h := absurd rfl h

theorem disk_live (k : ℕ) : disk.image.Live k ↔ k ∈ liveSlots :=
  (disk_agree.live_iff picture_catalogue.wellFormed k).trans (picture_catalogue.live_iff k)

theorem fillFrom_block {s : Fs} (hg : Geometry s) (vs : List ℤ) (i : ℕ) (hi : i + vs.length ≤ s.blockCount)
    {b : ℕ} (hb : s.image.IsData b) : (fillFrom s i vs).block b = s.block b := by
  induction vs generalizing s i with
  | nil => rfl
  | cons v vs ih =>
    simp only [List.length_cons] at hi
    have hframe := SameFrame.putFAT s v i
    rw [fillFrom, ih (hframe.geometry hg) (i + 1) (by change _ ≤ s.blockCount; omega)
      (hframe.isData.mpr hb), putFAT_block hg (by omega) v hb]

theorem storeAll_block {s : Fs} (hg : Geometry s) (l : List (ℕ × DirEntry)) (hl : ∀ p ∈ l, s.IsSlot p.1)
    {b : ℕ} (hb : ∀ p ∈ l, p.1 / s.image.epb ≠ b) : (storeAll s l).block b = s.block b := by
  induction l with
  | nil => rfl
  | cons p l ih =>
    obtain ⟨k, e⟩ := p
    have hframe := storeAll_frame s l
    have hslot : (storeAll s l).IsSlot k := hframe.isSlot.mpr (hl (k, e) (by simp))
    have hne := hframe.epb ▸ hb (k, e) (by simp)
    rw [storeAll, putEntry_block (hframe.geometry hg) hslot e hne, ih (fun p hp => hl p (by simp [hp]))
      fun p hp => hb p (by simp [hp])]

theorem disk_block {b : ℕ} (hb : b ∈ [4, 5, 6, 9, 10, 11]) : disk.block b = data.block b := by
  have hb' : data.image.IsData b := by
    simp only [List.mem_cons, List.not_mem_nil, or_false] at hb
    rcases hb with rfl | rfl | rfl | rfl | rfl | rfl <;> exact ⟨by decide, by decide⟩
  rw [disk, storeAll_block filled_geometry entries filled_slots,
    fillFrom_block data_geometry cells 0 (by decide) hb']
  rw [(fillFrom_frame data 0 cells).epb]
  have h : ∀ p ∈ entries, p.1 / 2 ∉ [4, 5, 6, 9, 10, 11] := by decide
  exact fun p hp he => h p hp (he ▸ hb)

theorem disk_block_head {b : ℕ} (hb : b ∈ [4, 5, 6, 9, 10, 11]) :
    (disk.block b)[0]? = some (data.data (b * 640)) := by
  have hbs : data.superblock.blockSize = 640 := data_frame.bs
  rw [disk_block hb, Driver.block, hbs, blockAt, slice_getElem? _ _ _ _ (by omega), Nat.add_zero]

theorem disk_lookup (path : Str) (hp : NoDots path) :
    disk.lookup path = picture.resolve picture.rootSlot (pathNames path) := by
  have ha := picture_catalogue.wellFormed.avoidsCopies .root hp.1 hp.2
  rw [Driver.lookup, disk_agree.rootSlot, disk_agree.resolve picture_catalogue.wellFormed .root ha]

theorem disk_lookupParent (path : Str) (hp : NoDots path) :
    disk.lookupParent path = picture.walkDirs picture.rootSlot (pathNames path).dropLast := by
  have ha : picture.AvoidsCopies picture.rootSlot (pathNames path).dropLast :=
    picture_catalogue.wellFormed.avoidsCopies .root
    (fun h => hp.1 (List.dropLast_subset _ h)) fun h => hp.2 (List.dropLast_subset _ h)
  rw [Driver.lookupParent, disk_agree.rootSlot, disk_agree.walkDirs picture_catalogue.wellFormed .root ha]

theorem disk_freeList : disk.freeList = [10, 11] := by
  have h : disk.freeList = (List.range 12).filter fun b : ℕ => picture.fat b = 0 :=
    List.filter_congr fun b hb => by rw [disk_fat (List.mem_range.mp hb)]
  rw [h]
  decide

def pathF : Str := slash :: nameF
def pathX : Str := [slash, 120]

theorem pathF_noDots : NoDots pathF := by
  unfold NoDots
  decide

theorem pathX_noDots : NoDots pathX := by
  unfold NoDots
  decide

theorem disk_lookup_f : disk.lookup pathF = .ok 6 := by
  rw [disk_lookup pathF pathF_noDots]
  decide

theorem disk_slot {k : ℕ} (hk : data.IsSlot k) : disk.entry k = lookupEntry entries k := disk_entry hk

theorem disk_entry_f : disk.entry 6 = item nameF .File 4 1280 :=
  (disk_slot ⟨by decide, by decide⟩).trans rfl

theorem disk_chain_f : disk.image.chain 6 = [4, 6] := by
  rw [disk_agree.chain picture_catalogue.wellFormed ((picture_catalogue.live_iff 6).mpr (by decide)),
    picture_catalogue.chain_eq (by decide)]
  rfl

theorem disk_find {path : Str} (hp : NoDots path) {k : ℕ} (hk : disk.lookup path = .ok k) :
    find path false disk = some (⟨0, disk.entry k, 320 * k, []⟩, disk.load) := by
  have hw := disk_wellFormed
  rw [run_find hw path (hw.image.walkReadable .root (hw.image.avoidsCopies .root hp.1 hp.2)), hk]
  rfl

end Thorn.FatSample

import Thorn.CallOutcomes

set_option autoImplicit false

namespace Thorn.FatDriver
open ByteStore Paths FatTypes FatOperations FatImage LinkedChain

/-- The first two entries of the root directory are the cached root, the second named `..`. -/
structure RootSynced (s : Fs) : Prop where
  dot : s.entry s.image.rootSlot = s.root
  dotdot : s.entry (s.image.rootSlot + 1) = s.root.setName dotDotName

theorem SameFrame.rootSlot {s t : Fs} (h : SameFrame s t) : t.image.rootSlot = s.image.rootSlot := by
  have h₁ : t.image.fatBlocks = s.image.fatBlocks := h.fatBlocks
  rw [Image.rootSlot, Image.rootSlot, Image.startBlock, Image.startBlock, h₁, h.epb]

section Slots
variable {s : Fs}

theorem behind_of_block (hg : Geometry s) {k : ℕ} (hk : s.IsSlot k)
    (hb : k / s.image.epb ≠ s.image.startBlock) : s.image.rootSlot + 2 ≤ k := by
  have h2 := hg.two_le_epb
  have hfirst : s.image.fatBlocks < k / s.image.epb := hk.1
  have hblock : s.image.startBlock + 1 ≤ k / s.image.epb := by
    have hstart : s.image.startBlock = s.image.fatBlocks + 1 := rfl
    omega
  have hle := (Nat.le_div_iff_mul_le hg.epb_pos).mp hblock
  rw [Nat.succ_mul] at hle
  rw [Image.rootSlot]
  omega

theorem startBlock_mem (hw : WellFormed s) : s.image.startBlock ∈ s.image.chain s.image.rootSlot := by
  have hl := (hw.image.owns _ .root).length_pos
  exact hw.image.root_chain hl ▸ List.getElem_mem hl

theorem slot_behind (hw : WellFormed s) {p i : ℕ} (hp : s.image.Live p) (hi : s.image.copies p ≤ i)
    (hlt : i / s.image.epb < (s.image.chain p).length) :
    s.image.rootSlot + 2 ≤ s.image.slotAt (s.image.chain p) i := by
  have hg := hw.geometry
  have howns := hw.image.owns p hp
  have hslot : s.IsSlot (s.image.slotAt (s.image.chain p) i) := howns.slotAt_data hg.epb_pos hlt
  by_cases hb : s.image.slotAt (s.image.chain p) i / s.image.epb = s.image.startBlock
  · have hmem : s.image.startBlock ∈ s.image.chain p := hb ▸ Image.slotAt_mem hg.epb_pos _ i hlt
    obtain rfl : p = s.image.rootSlot := by
      by_contra hne
      exact hw.image.disjoint p _ hp .root hne hmem (startBlock_mem hw)
    -- the root's first block, behind its first two entries
    have hfirst := hw.image.root_chain howns.length_pos
    rw [Image.slotAt_block _ i hlt hg.epb_pos, ← hfirst] at hb
    have hzero : i / s.image.epb = 0 := (List.Nodup.getElem_inj_iff howns.nodup).mp hb
    have hsmall : i < s.image.epb := (Nat.div_eq_zero_iff_lt hg.epb_pos).mp hzero
    rw [hw.image.root_slotAt hsmall]
    rw [Image.copies, if_pos rfl] at hi
    omega
  · exact behind_of_block hg hslot hb

theorem child_behind (hw : WellFormed s) {p k : ℕ} (hp : s.image.Live p)
    (hk : k ∈ (s.image.slots p).drop (s.image.copies p)) : s.image.rootSlot + 2 ≤ k := by
  obtain ⟨i, h₁, h₂, rfl⟩ := Image.mem_slotsIn_drop.mp hk
  exact slot_behind hw hp h₁ (hw.image.index_lt hp h₂)

theorem live_behind (hw : WellFormed s) {k : ℕ} (hk : s.image.Live k) (hr : k ≠ s.image.rootSlot) :
    s.image.rootSlot + 2 ≤ k := by
  obtain ⟨p, hp, hchild⟩ := hk.parent hr
  exact child_behind hw hp hchild.2.1

theorem live_start (hw : WellFormed s) {k : ℕ} (hk : s.image.Live k) (hr : k ≠ s.image.rootSlot) :
    (s.entry k).start ≠ s.superblock.startBlock := by
  rw [hw.geometry.startBlock]
  exact start_ne_startBlock hw hk hr

theorem free_behind (hw : WellFormed s) {f : ℕ} (hf : f ∈ s.freeList) : s.image.startBlock < f := by
  have hd := hw.free_data hf
  have hne : f ≠ s.image.startBlock := by
    rintro rfl
    exact hw.free_apart .root hf (startBlock_mem hw)
  have hlow : s.image.fatBlocks < f := hd.1
  have hstart : s.image.startBlock = s.image.fatBlocks + 1 := rfl
  omega

end Slots

section Cached
variable {s : Fs}

theorem putEntries_root (s : Fs) (k : ℕ) (e : DirEntry) : (s.putEntries k e).root = s.root := by
  unfold Driver.putEntries
  split_ifs <;> rfl

theorem storeEntry_root (hg : Geometry s) (k : ℕ) (e : DirEntry) : (s.storeEntry e (320 * k)).root =
    if e.start = s.superblock.startBlock then { s.root with length := e.length } else s.root := by
  have hput := putEntries_root s k e
  rw [storeEntry_eq hg, Driver.refresh, (SameFrame.putEntries s k e).superblock]
  split_ifs
  · dsimp only
    rw [hput]
  · exact hput

theorem storeEntry_root_start (s : Fs) (e : DirEntry) (o : ℕ) :
    (s.storeEntry e o).root.start = s.root.start := by
  unfold Driver.storeEntry Driver.refresh
  split_ifs <;> rfl

theorem entered_root_start (s : Fs) (p k : ℕ) (e : DirEntry) (grow noalloc : Bool) :
    (s.entered p k e grow noalloc).root.start = s.root.start := by
  have hstored := storeEntry_root_start s e (320 * k)
  have hgrown := storeEntry_root_start (s.storeEntry e (320 * k)) (grownEntry (s.entry p) true) (320 * p)
  unfold Driver.entered
  cases grow <;> cases noalloc
  exacts [hstored, hstored, hgrown.trans hstored, hgrown.trans hstored]

end Cached

namespace RootSynced
variable {s t : Fs}

theorem onlyTable (h : RootSynced s) (hg : Geometry s) (ht : OnlyTable s t) : RootSynced t := by
  have h₀ := ht.entry hg (root_isSlot hg (i := 0) hg.epb_pos)
  have h₁ := ht.entry hg (root_isSlot hg (i := 1) hg.two_le_epb)
  constructor
  · rw [ht.frame.rootSlot, ht.root]
    exact h₀.trans h.dot
  · rw [ht.frame.rootSlot, ht.root]
    exact h₁.trans h.dotdot

theorem addFree (h : RootSynced s) (n : ℤ) : RootSynced (s.addFree n) := ⟨h.dot, h.dotdot⟩

theorem putFAT (h : RootSynced s) (hg : Geometry s) (v : ℤ) {b : ℕ} (hb : b < s.blockCount) :
    RootSynced (s.putFAT v b) := h.onlyTable hg (.putFAT hg v hb)

theorem pokes (h : RootSynced s) (hg : Geometry s) (ps : List (ℕ × List UInt8))
    (hps : ∀ p ∈ ps, 320 * (s.image.rootSlot + 2) ≤ p.1 ∧ p.1 < 2 ^ 63) : RootSynced (s.pokes ps) := by
  have hframe := SameFrame.pokes s ps
  have hdata := pokes_data s ps fun p hp => by
    have h₁ := hg.offset
    have h₂ := hg.length
    have h₃ := (hps p hp).2
    have h₄ := hg.data_start
    have h₅ := hg.bs_pos
    omega
  have hentry : ∀ k < s.image.rootSlot + 2, (s.pokes ps).entry k = s.entry k := fun k hk => by
    rw [entry_eq, entry_eq, hdata, slice_patches _ _ _ _ fun p hp => .inl (by have := (hps p hp).1; omega)]
  have hroot : (s.pokes ps).root = s.root := pokes_root s ps
  constructor
  · rw [hframe.rootSlot, hroot, hentry _ (by omega)]
    exact h.dot
  · rw [hframe.rootSlot, hroot, hentry _ (by omega)]
    exact h.dotdot

theorem poke (h : RootSynced s) (hg : Geometry s) {p : ℕ} {l : List UInt8}
    (hp : 320 * (s.image.rootSlot + 2) ≤ p) (hp' : p < 2 ^ 63) : RootSynced (s.poke p l) :=
  h.pokes hg [(p, l)] fun q hq => by
    obtain rfl := List.mem_singleton.mp hq
    exact ⟨hp, hp'⟩

theorem storeEntry (h : RootSynced s) (hg : Geometry s) {k : ℕ} (hk : s.IsSlot k)
    (hb : s.image.rootSlot + 2 ≤ k)
    {e : DirEntry} (he : e.start = s.superblock.startBlock → e.length = s.root.length) :
    RootSynced (s.storeEntry e (320 * k)) := by
  have hroot : (s.storeEntry e (320 * k)).root = s.root := by
    rw [storeEntry_root hg]
    split_ifs with hs
    · rw [he hs]
    · rfl
  have hframe := SameFrame.storeEntry s e (320 * k)
  constructor
  · rw [hframe.rootSlot, hroot, storeEntry_entry hg hk, if_neg (by omega), if_neg (by omega)]
    exact h.dot
  · rw [hframe.rootSlot, hroot, storeEntry_entry hg hk, if_neg (by omega), if_neg (by omega)]
    exact h.dotdot

end RootSynced

section Root
variable {s : Fs}

/-- An entry of the root stored in its slot makes the copies alike just when it
differs from the cached root in its length alone. -/
theorem storeRoot_synced_iff (hg : Geometry s) {e : DirEntry} (he : e.start = s.superblock.startBlock) :
    RootSynced (s.storeEntry e (320 * s.image.rootSlot)) ↔ e = { s.root with length := e.length } := by
  have hslot : s.IsSlot s.image.rootSlot := root_isSlot hg (i := 0) hg.epb_pos
  have hframe := SameFrame.storeEntry s e (320 * s.image.rootSlot)
  have hroot : (s.storeEntry e (320 * s.image.rootSlot)).root = { s.root with length := e.length } := by
    rw [storeEntry_root hg, if_pos he]
  have hdot : (s.storeEntry e (320 * s.image.rootSlot)).entry s.image.rootSlot = e := by
    rw [storeEntry_entry hg hslot, if_pos rfl]
  constructor
  · intro h
    have hd := h.dot
    rw [hframe.rootSlot, hroot, hdot] at hd
    exact hd
  · intro h
    constructor
    · rw [hframe.rootSlot, hroot, hdot]
      exact h
    · rw [hframe.rootSlot, hroot, storeEntry_entry hg hslot, if_neg (by omega), if_pos ⟨rfl, rfl⟩]
      exact congrArg (·.setName dotDotName) h

theorem storeRoot_synced (hg : Geometry s) (hstart : s.root.start = s.superblock.startBlock) (n : ℕ) :
    RootSynced (s.storeEntry (s.root.setLength n) (320 * s.image.rootSlot)) :=
  (storeRoot_synced_iff (e := s.root.setLength n) hg hstart).mpr rfl

end Root

structure Driver.Takes (s : Fs) (k : ℕ) : Prop where
  slot : s.IsSlot k
  behind : s.image.rootSlot + 2 ≤ k

theorem SameFrame.takes {s t : Fs} (h : SameFrame s t) {k : ℕ} (hk : s.Takes k) : t.Takes k :=
  ⟨h.isSlot.mpr hk.slot, by rw [h.rootSlot]; exact hk.behind⟩

theorem Live.takes {s : Fs} (hw : WellFormed s) {k : ℕ} (hk : s.image.Live k) (hr : k ≠ s.image.rootSlot) :
    s.Takes k :=
  ⟨hw.image.live_data hk, live_behind hw hk hr⟩

theorem slot_cases {s : Fs} (hg : Geometry s) {k : ℕ} (hk : s.IsSlot k) :
    k = s.image.rootSlot ∨ k = s.image.rootSlot + 1 ∨ s.Takes k := by
  have hblock : s.image.startBlock ≤ k / s.image.epb := hk.1
  have hle : s.image.rootSlot ≤ k := (Nat.le_div_iff_mul_le hg.epb_pos).mp hblock
  by_cases h₀ : k = s.image.rootSlot
  · exact .inl h₀
  by_cases h₁ : k = s.image.rootSlot + 1
  · exact .inr (.inl h₁)
  · exact .inr (.inr ⟨hk, by omega⟩)

section Entered
variable {s : Fs} {p k : ℕ}

theorem RootSynced.storeParent (h : RootSynced s) (hg : Geometry s)
    (hstart : s.root.start = s.superblock.startBlock)
    {e : DirEntry} (hp : p = s.image.rootSlot ∧ e = s.root ∨ s.Takes p ∧ e.start ≠ s.superblock.startBlock) :
    RootSynced (s.storeEntry (grownEntry e true) (320 * p)) ∧
      (p = s.image.rootSlot → (s.storeEntry (grownEntry e true) (320 * p)).root = grownEntry e true) := by
  rcases hp with ⟨rfl, rfl⟩ | ⟨hp, hne⟩
  · refine ⟨storeRoot_synced hg hstart _, fun _ => ?_⟩
    rw [storeEntry_root hg]
    exact if_pos hstart
  · refine ⟨h.storeEntry hg hp.slot hp.behind fun he => absurd he hne, fun he => ?_⟩
    have := hp.behind
    omega

theorem RootSynced.entered (h : RootSynced s) (hg : Geometry s)
    (hstart : s.root.start = s.superblock.startBlock)
    (hk : s.Takes k) {newfile : DirEntry} (hnew : newfile.start ≠ s.superblock.startBlock) (grow noalloc : Bool)
    (hp : grow = true → p = s.image.rootSlot ∨ s.Takes p ∧ (s.entry p).start ≠ s.superblock.startBlock)
    (hf : noalloc = true ∨ ∃ f : ℕ, newfile.start = f ∧ f < s.blockCount) :
    RootSynced (s.entered p k newfile grow noalloc) ∧
      (p = s.image.rootSlot → (s.entered p k newfile grow noalloc).root = grownEntry (s.entry p) grow) := by
  have hframe := SameFrame.storeEntry s newfile (320 * k)
  have hstored := h.storeEntry hg hk.slot hk.behind fun he => absurd he hnew
  have hroot : (s.storeEntry newfile (320 * k)).root = s.root := by rw [storeEntry_root hg, if_neg hnew]
  have hgrown :
      RootSynced
      (if grow then (s.storeEntry newfile (320 * k)).storeEntry (grownEntry (s.entry p) true) (320 * p)
      else s.storeEntry newfile (320 * k)) ∧ (p = s.image.rootSlot →
        (if grow then (s.storeEntry newfile (320 * k)).storeEntry (grownEntry (s.entry p) true) (320 * p)
          else s.storeEntry newfile (320 * k)).root = grownEntry (s.entry p) grow) := by
    cases grow with
    | true =>
      have hparent := hstored.storeParent (p := p) (e := s.entry p) (hframe.geometry hg)
        (by rw [hroot, hframe.superblock]; exact hstart) (by
          rw [hframe.rootSlot, hframe.superblock, hroot]
          exact (hp rfl).imp (fun he => ⟨he, he ▸ h.dot⟩) fun h => ⟨hframe.takes h.1, h.2⟩)
      rwa [hframe.rootSlot] at hparent
    | false =>
      refine ⟨hstored, fun he => ?_⟩
      rw [he, h.dot]
      exact hroot
  have hframe' :
      SameFrame s
      (if grow then (s.storeEntry newfile (320 * k)).storeEntry (grownEntry (s.entry p) true) (320 * p)
      else s.storeEntry newfile (320 * k)) := by
    split_ifs
    exacts [hframe.trans (.storeEntry _ _ _), hframe]
  unfold Driver.entered
  rcases hf with rfl | ⟨f, hf, hlt⟩
  · exact hgrown
  · cases noalloc with
    | true => exact hgrown
    | false =>
      dsimp only
      rw [hf]
      exact ⟨hgrown.1.putFAT (hframe'.geometry hg) FINAL (hframe'.blockCount ▸ hlt), hgrown.2⟩

theorem SameFrame.entered (s : Fs) (p k : ℕ) (e : DirEntry) (grow noalloc : Bool) :
    SameFrame s (s.entered p k e grow noalloc) := by
  have hstored := SameFrame.storeEntry s e (320 * k)
  unfold Driver.entered
  cases grow <;> cases noalloc
  · exact hstored.trans (.putFAT _ _ _)
  · exact hstored
  · exact (hstored.trans (.storeEntry _ _ _)).trans (.putFAT _ _ _)
  · exact hstored.trans (.storeEntry _ _ _)

theorem grownEntry_start (e : DirEntry) (grow : Bool) : (grownEntry e grow).start = e.start := by
  cases grow <;> rfl

theorem ownEntry_start (hg : Geometry s) (path : Str) (length : ℕ) (type : FileType) {f : ℕ}
    (hf : f < s.blockCount) : (ownEntry path length type f).start = f := by
  rw [ownEntry, DirEntry.setName_start, DirEntry.setStart_start, hg.toInt32_block hf]

end Entered

section Outcomes
variable {s t : Fs} {path : Str}

theorem freedSlot_live (hw : WellFormed s) {p : ℕ} (hp : s.image.Live p) :
    s.freedSlot p = ((s.image.slots p).drop (s.image.copies p)).find? fun k => s.free (s.entry k) := by
  rw [Driver.freedSlot, skips_live hw hp]

theorem freedSlot_some {p k : ℕ} (h : s.freedSlot p = some k) : k ∈ s.image.slots p ∧ s.free (s.entry k) :=
  ⟨List.mem_of_mem_drop (List.mem_of_find?_eq_some h), by simpa using List.find?_some h⟩

theorem freedSlot_mem (hw : WellFormed s) {p k : ℕ} (hp : s.image.Live p) (h : s.freedSlot p = some k) :
    k ∈ (s.image.slots p).drop (s.image.copies p) := by
  rw [freedSlot_live hw hp] at h
  exact List.mem_of_find?_eq_some h

theorem freedSlot_takes (hw : WellFormed s) {p k : ℕ} (hp : s.image.Live p) (h : s.freedSlot p = some k) :
    s.Takes k := by
  have hk := freedSlot_mem hw hp h
  exact ⟨hw.image.slot_data hp (List.mem_of_mem_drop hk), child_behind hw hp hk⟩

theorem Listed.freedSlot_slot (hg : Geometry s) {p k : ℕ} (hl : Listed s p) (h : s.freedSlot p = some k) :
    s.IsSlot k := hl.readable.slot_data hg.epb_pos (freedSlot_some h).1

theorem Listed.endSlot_slot (hg : Geometry s) {p : ℕ} (hl : Listed s p) (hf : ¬ s.FullDir p) :
    s.IsSlot (s.endSlot p) := hl.readable.owns.slotAt_data hg.epb_pos (endSlot_position hg hl hf).2

theorem RootSynced.freed_takes (h : RootSynced s) (hw : WellFormed s) {k : ℕ} (hk : s.IsSlot k)
    (hfree : s.free (s.entry k)) : s.Takes k := by
  have hroot : s.free (s.entry s.image.rootSlot) = false := (hw.image.owns _ .root).not_free
  rcases slot_cases hw.geometry hk with rfl | rfl | ht
  · exact absurd (hroot.symm.trans hfree) (by simp)
  · have hsame : s.free (s.entry (s.image.rootSlot + 1)) = s.free (s.entry s.image.rootSlot) := by
      rw [h.dot, h.dotdot]
      rfl
    exact absurd ((hsame.trans hroot).symm.trans hfree) (by simp)
  · exact ht

/-- A directory that holds the root's first block, by another entry than the root's. -/
def Driver.CopiesRoot (s : Fs) (p : ℕ) : Prop := p ≠ s.image.rootSlot ∧ s.image.startBlock ∈ s.image.chain p

theorem Driver.Takes.apart {p : ℕ} (h : s.Takes p) (hcopy : ¬ s.CopiesRoot p) : s.image.startBlock ∉ s.image.chain p :=
  fun hm => hcopy ⟨by have := h.behind; omega, hm⟩

theorem RootSynced.storable (h : RootSynced s) (hw : WellFormed s) {p : ℕ} (hp : s.IsSlot p)
    (hr : s.image.Readable (s.entry p)) (hcopy : ¬ s.CopiesRoot p) :
    p = s.image.rootSlot ∨ s.Takes p ∧ (s.entry p).start ≠ s.superblock.startBlock := by
  by_cases hroot : p = s.image.rootSlot
  · exact .inl hroot
  have hapart : s.image.startBlock ∉ s.image.chain p := fun hm => hcopy ⟨hroot, hm⟩
  have hstart : (s.entry p).start ≠ s.superblock.startBlock := fun he => by
    have hmem := hr.owns.start_mem
    rw [he, hw.geometry.startBlock] at hmem
    exact hapart hmem
  refine .inr ⟨((slot_cases hw.geometry hp).resolve_left hroot).resolve_left ?_, hstart⟩
  rintro rfl
  apply hstart
  rw [h.dotdot, DirEntry.setName_start, ← h.dot]
  exact entry_start_root hw

theorem Listed.endSlot_behind (hw : WellFormed s) {p : ℕ} (hl : Listed s p) (hf : ¬ s.FullDir p)
    (hcopy : ¬ s.CopiesRoot p) : s.Takes (s.endSlot p) := by
  by_cases hroot : p = s.image.rootSlot
  · have hlt := (endSlot_position hw.geometry hl hf).2
    subst hroot
    exact ⟨hl.endSlot_slot hw.geometry hf, slot_behind hw .root (hw.image.copies_le .root hl.directory) hlt⟩
  have hslot := hl.endSlot_slot hw.geometry hf
  refine ⟨hslot, behind_of_block hw.geometry hslot fun he => hcopy ⟨hroot, ?_⟩⟩
  rw [← he]
  exact Image.slotAt_mem hw.geometry.epb_pos _ _ (endSlot_position hw.geometry hl hf).2

theorem endSlot_takes (hw : WellFormed s) {p : ℕ} (hp : s.image.Live p) (hd : (s.entry p).isDirectory)
    (hf : ¬ s.FullDir p) : s.Takes (s.endSlot p) := by
  have hlt := (endSlot_position hw.geometry (listed_of_live hw hp hd) hf).2
  exact ⟨(hw.image.owns p hp).slotAt_data hw.geometry.epb_pos hlt,
    slot_behind hw hp (hw.image.copies_le hp hd) hlt⟩

theorem block_takes (hw : WellFormed s) {f : ℕ} (hf : f ∈ s.freeList) : s.Takes (f * s.image.epb) := by
  have hE := hw.geometry.epb_pos
  have hdiv : f * s.image.epb / s.image.epb = f := Nat.mul_div_cancel _ hE
  have hslot : s.IsSlot (f * s.image.epb) := by
    rw [Driver.IsSlot, hdiv]
    exact hw.free_data hf
  refine ⟨hslot, behind_of_block hw.geometry hslot ?_⟩
  have := free_behind hw hf
  omega

theorem allocated_slots (hw : WellFormed s) {p f : ℕ} {fs : List ℕ} (hfree : s.freeList = f :: fs)
    (hp : s.image.Live p) : ((s.allocated f).image.slots p).drop ((s.allocated f).skips p) =
      (s.image.slots p).drop (s.image.copies p) := by
  have hf := (mem_freeList.mp (hfree ▸ List.mem_cons_self : f ∈ s.freeList)).1
  have honly := OnlyTable.allocated hw.geometry hf
  have hcount : (s.allocated f).image.count p = s.image.count p :=
    congrArg (fun e : DirEntry => e.len / sizeofDirEntry) (allocated_entry hw.geometry hf (hw.image.live_data hp))
  have hskips : (s.allocated f).skips p = s.skips p := by
    have hblocks : (s.allocated f).image.fatBlocks = s.image.fatBlocks := honly.frame.fatBlocks
    rw [Driver.skips, Driver.skips, allocated_entry hw.geometry hf (hw.image.live_data hp), Image.startBlock,
      Image.startBlock, hblocks]
  have hat : (s.allocated f).image.slotAt = s.image.slotAt := by
    funext l i
    rw [Image.slotAt, Image.slotAt, honly.frame.epb]
  have hslots : (s.allocated f).image.slots p = s.image.slots p := by
    rw [Image.slots, Image.slots, allocated_chain hw hfree hp, hcount, Image.slotsIn, Image.slotsIn, hat]
  rw [hslots, hskips, skips_live hw hp]

theorem allocated_freedSlot (hw : WellFormed s) {p f k : ℕ} {fs : List ℕ} (hfree : s.freeList = f :: fs)
    (hp : s.image.Live p) (h : (s.allocated f).freedSlot p = some k) :
    k ∈ (s.image.slots p).drop (s.image.copies p) := by
  have hk := List.mem_of_find?_eq_some h
  rwa [allocated_slots hw hfree hp] at hk

theorem parent_place (hw : WellFormed s) {p : ℕ} (hp : s.image.Live p) (ht : OnlyTable s t) :
    p = t.image.rootSlot ∨ t.Takes p ∧ (t.entry p).start ≠ t.superblock.startBlock := by
  rw [ht.frame.rootSlot, ht.frame.superblock, ht.entry hw.geometry (hw.image.live_data hp)]
  by_cases hr : p = s.image.rootSlot
  · exact .inl hr
  · exact .inr ⟨ht.frame.takes (Live.takes hw hp hr), live_start hw hp hr⟩

structure Fresh (t : Fs) (r : NewFileResult) : Prop where
  slot : ∃ k, r.offset = 320 * k ∧ t.Takes k
  start : ∃ f : ℕ, r.entry.start = f ∧ t.image.startBlock < f ∧ f < t.blockCount
  parent : r.parent.start = t.superblock.startBlock → r.parent.length = t.root.length

theorem Created.synced {length : ℕ} {type : FileType} {r : NewFileResult} (hw : WellFormed s) (h : RootSynced s)
    (hstart : s.root.start = s.superblock.startBlock)
    (hstay : s.image.StaysLive s.image.rootSlot (pathNames path).dropLast)
    (hc : Created s path length type r t) : SameFrame s t ∧ RootSynced t ∧ (0 ≤ r.status → Fresh t r) := by
  have hg := hw.geometry
  have hfail : ∀ {status : ℤ}, status < 0 → 0 ≤ (NewFileResult.fail status).status → Fresh t r :=
    fun h₁ h₂ => absurd h₂ (not_le.mpr h₁)
  -- a block that is free, taken
  have htaken : ∀ {f fs}, s.freeList = f :: fs →
      f ∈ s.freeList ∧ f < s.blockCount ∧ OnlyTable s (s.allocated f) :=
    fun {f fs} hfree => by
      have hmem : f ∈ s.freeList := hfree ▸ List.mem_cons_self
      exact ⟨hmem, (mem_freeList.mp hmem).1, .allocated hg (mem_freeList.mp hmem).1⟩
  -- an entry with block `b` in slot `k` of directory `p`
  have hplaced : ∀ {u : Fs} {p k b : ℕ} {e : DirEntry} {grow : Bool},
      OnlyTable s u → s.image.Live p → s.Takes k → b ∈ s.freeList → e.start = b →
      SameFrame s (u.entered p k e grow false) ∧ RootSynced (u.entered p k e grow false) ∧
      Fresh (u.entered p k e grow false) (u.newResult p k e grow) := fun {u p k b e grow} hu hp hk hb he => by
    have hgu := hu.frame.geometry hg
    have hlt := (mem_freeList.mp hb).1
    have hbehind := free_behind hw hb
    have hne : e.start ≠ u.superblock.startBlock := by
      rw [hu.frame.superblock, hg.startBlock, he]
      have hs : s.image.startBlock = s.fatBlocks + 1 := rfl
      omega
    have hframe : SameFrame s (u.entered p k e grow false) := hu.frame.trans (.entered u p k e grow false)
    have hentered := (h.onlyTable hg hu).entered hgu (by rw [hu.root, hu.frame.superblock]; exact hstart)
      (hu.frame.takes hk) hne grow false (fun _ => parent_place hw hp hu)
      (.inr ⟨b, he, by rw [hu.frame.blockCount]; exact hlt⟩)
    refine ⟨hframe, hentered.1, ⟨k, rfl, hframe.takes hk⟩, ⟨b, he, ?_, by rw [hframe.blockCount]; exact hlt⟩,
      fun hs => ?_⟩
    · have h₁ : (u.entered p k e grow false).image.startBlock = s.image.startBlock := by
        have h₂ : (u.entered p k e grow false).image.fatBlocks = s.image.fatBlocks := hframe.fatBlocks
        rw [Image.startBlock, Image.startBlock, h₂]
      rw [h₁]
      exact hbehind
    · have hp' : p = u.image.rootSlot := by
        refine (parent_place hw hp hu).resolve_right fun hpl => hpl.2 ?_
        rw [← (SameFrame.entered u p k e grow false).superblock, ← hs]
        exact (grownEntry_start _ _).symm
      exact congrArg DirEntry.length (hentered.2 hp').symm
  cases hc with
  | lost hl _ => exact ⟨.refl s, h, hfail (walkDirs_error hl)⟩
  | long => exact ⟨.refl s, h, hfail (by decide)⟩
  | full => exact ⟨.refl s, h, hfail (by decide)⟩
  | astray hfree _ => exact ⟨(htaken hfree).2.2.frame, h.onlyTable hg (htaken hfree).2.2, hfail (by decide)⟩
  | @recycled p f k fs ht hk =>
    have hp : s.image.Live p := hstay.walkDirs .root ht.parent
    have hmem := allocated_freedSlot hw ht.free hp hk
    have htakes : s.Takes k := ⟨hw.image.slot_data hp (List.mem_of_mem_drop hmem), child_behind hw hp hmem⟩
    obtain ⟨h₀, h₁, h₂⟩ :=
      hplaced (htaken ht.free).2.2 hp htakes (htaken ht.free).1 (ownEntry_start hg _ _ _ (htaken ht.free).2.1)
    exact ⟨h₀, h₁, fun _ => h₂⟩
  | @crowded p f ht hk hroom hlen =>
    obtain ⟨-, hf, hu⟩ := htaken ht.free
    exact ⟨hu.frame.trans (.putFAT _ _ _), (h.onlyTable hg hu).putFAT (hu.frame.geometry hg) 0
      (hu.frame.blockCount ▸ hf), hfail (by decide)⟩
  | @appended p f fs ht hk hroom hlen =>
    have hp : s.image.Live p := hstay.walkDirs .root ht.parent
    obtain ⟨hmem, hf, hu⟩ := htaken ht.free
    obtain ⟨h₀, h₁, h₂⟩ :=
      hplaced hu hp (endSlot_takes hw hp ht.directory hroom) hmem (ownEntry_start hg _ _ _ hf)
    exact ⟨h₀, h₁, fun _ => h₂⟩
  | @stuck p f fs ht hk hfull hfew =>
    obtain ⟨-, hf, hu⟩ := htaken ht.free
    exact ⟨hu.frame.trans (.putFAT _ _ _), (h.onlyTable hg hu).putFAT (hu.frame.geometry hg) 0
      (hu.frame.blockCount ▸ hf), hfail (by decide)⟩
  | @expanded p f g fs ht hk hfull henough =>
    have hp : s.image.Live p := hstay.walkDirs .root ht.parent
    obtain ⟨hmem, hf, hu⟩ := htaken ht.free
    have hgmem : g ∈ s.freeList := by
      rw [ht.free]
      simp
    have hglt := (mem_freeList.mp hgmem).1
    have hu' :=
      (hu.trans
      (.putFAT (hu.frame.geometry hg) ((s.image.chain p).getLastD 0 : ℕ) (hu.frame.blockCount ▸ hf))).trans
      (.addFree _ (-1))
    have hstartg : ((ownEntry path length type f).setStart g).start = g := by
      rw [DirEntry.setStart_start, hg.toInt32_block hglt]
    obtain ⟨h₀, h₁, h₂⟩ := hplaced hu' hp (block_takes hw hmem) hgmem hstartg
    exact ⟨h₀, h₁, fun _ => h₂⟩

theorem Placed.frame {e : DirEntry} {r : NewFileResult} (h : Placed s path e r t) :
    SameFrame s t ∧ t.root.start = s.root.start := by
  cases h with
  | lost => exact ⟨.refl s, rfl⟩
  | recycled => exact ⟨.entered _ _ _ _ _ _, entered_root_start _ _ _ _ _ _⟩
  | appended => exact ⟨.entered _ _ _ _ _ _, entered_root_start _ _ _ _ _ _⟩
  | expanded => exact ⟨(SameFrame.putFAT _ _ _).trans (.entered _ _ _ _ _ _), entered_root_start _ _ _ _ _ _⟩

theorem Placed.slot {e : DirEntry} {r : NewFileResult} (hw : WellFormed s) (hhouses : s.Houses path)
    (h : Placed s path e r t) (hr : 0 ≤ r.status) : ∃ k, r.offset = 320 * k ∧ s.IsSlot k := by
  cases h with
  | lost hneg => exact absurd hr (not_le.mpr hneg)
  | recycled ht hk => exact ⟨_, rfl, (ht.listed hhouses).freedSlot_slot hw.geometry hk⟩
  | appended ht _ hroom => exact ⟨_, rfl, (ht.listed hhouses).endSlot_slot hw.geometry hroom⟩
  | @expanded p f fs ht _ _ hfree =>
    exact ⟨_, rfl, (block_takes hw (hfree ▸ List.mem_cons_self : f ∈ s.freeList)).slot⟩

theorem Placed.synced {e : DirEntry} {r : NewFileResult} (hw : WellFormed s) (h : RootSynced s)
    (hstart : s.root.start = s.superblock.startBlock) (hhouses : s.Houses path)
    (hcopy : ∀ p, Home s path p → s.freedSlot p = none → s.HasPlace path → ¬ s.CopiesRoot p) (he : e.start = 0)
    (hc : Placed s path e r t) : RootSynced t ∧ (0 ≤ r.status → ∃ k, r.offset = 320 * k ∧ s.Takes k) := by
  have hg := hw.geometry
  have hplaced : ∀ {u : Fs} {p k : ℕ} (grow : Bool), OnlyTable s u → Home s path p → s.Takes k →
      (grow = true → ¬ s.CopiesRoot p) → RootSynced (u.entered p k e grow true) ∧
        (0 ≤ (u.newResult p k e grow).status → ∃ k', (u.newResult p k e grow).offset = 320 * k' ∧ s.Takes k') :=
    fun {u p k} grow hu ht hk hcopy => by
      have hslot := ht.slot hw hhouses
      have hne : e.start ≠ u.superblock.startBlock := by
        rw [hu.frame.superblock, hg.startBlock, he]
        omega
      have hentered := (h.onlyTable hg hu).entered (hu.frame.geometry hg)
        (by rw [hu.root, hu.frame.superblock]; exact hstart) (hu.frame.takes hk) hne grow true
        (fun hgrow => by
          rw [hu.frame.rootSlot, hu.frame.superblock, hu.entry hg hslot]
          exact (h.storable hw hslot (ht.listed hhouses).readable (hcopy hgrow)).imp_right
            fun hs => ⟨hu.frame.takes hs.1, hs.2⟩)
        (.inl rfl)
      exact ⟨hentered.1, fun _ => ⟨k, rfl, hk⟩⟩
  cases hc with
  | lost hneg _ => exact ⟨h, fun h' => absurd h' (not_le.mpr hneg)⟩
  | @recycled p k ht hk =>
    have htakes := h.freed_takes hw ((ht.listed hhouses).freedSlot_slot hg hk) (freedSlot_some hk).2
    exact hplaced false (.refl s) ht htakes (by simp)
  | @appended p ht hk hroom =>
    have hno := hcopy p ht hk ⟨p, ht, .inr (.inl hroom)⟩
    exact hplaced true (.refl s) ht ((ht.listed hhouses).endSlot_behind hw hroom hno) fun _ => hno
  | @expanded p f fs ht hk hfull hfree =>
    have hno := hcopy p ht hk ⟨p, ht, .inr (.inr (by simp [hfree]))⟩
    have hmem : f ∈ s.freeList := hfree ▸ List.mem_cons_self
    exact hplaced true (.putFAT hg _ (mem_freeList.mp hmem).1) ht (block_takes hw hmem) fun _ => hno

theorem RootSynced.moved (h : RootSynced s) (hg : Geometry s) (e : DirEntry) {k l : ℕ} (hk : s.Takes k)
    (hl : s.Takes l) : RootSynced (s.moved e (320 * k) l) := by
  have hlen := hg.length
  have hframe := SameFrame.poke s (320 * k) e.encode
  have hk' := (slot_bound hg hk.slot).2
  have hl' := (slot_bound hg hl.slot).2
  have hkb := hk.behind
  have hlb := hl.behind
  apply RootSynced.poke _ (hframe.geometry hg)
  · rw [hframe.rootSlot]
    omega
  · omega
  · exact h.poke hg (by omega) (by omega)

theorem behind_position (hg : Geometry s) {b : ℕ} (hb : s.image.IsData b) (hne : b ≠ s.image.startBlock) :
    320 * (s.image.rootSlot + 2) ≤ b * s.bs := by
  have hE := hg.epb_pos
  have hdiv : b * s.image.epb / s.image.epb = b := Nat.mul_div_cancel _ hE
  have hslot : s.IsSlot (b * s.image.epb) := by
    rw [Driver.IsSlot, hdiv]
    exact hb
  have hle := behind_of_block hg hslot (by rw [hdiv]; exact hne)
  calc 320 * (s.image.rootSlot + 2) ≤ 320 * (b * s.image.epb) := Nat.mul_le_mul_left _ hle
    _ = b * s.bs := by rw [← hg.epb_mul]; ring

theorem getLastD_mem {l : List ℕ} (h : l ≠ []) : l.getLastD 0 ∈ l := by
  rw [List.getLastD_eq_getLast?, List.getLast?_eq_getLast_of_ne_nil h]
  exact List.getLast_mem h

theorem RootSynced.reblocked (h : RootSynced s) (hw : WellFormed s) {e : DirEntry} (hr : s.image.Readable e)
    (hne : s.image.startBlock ∉ s.image.chainOf e) {new_size : ℕ} (hsize : e.len ≠ new_size) :
    RootSynced (s.reblocked e new_size) := by
  have hg := hw.geometry
  have hzero : new_size < e.len → RootSynced (s.zeroTail e new_size) := fun hlt => by
    unfold Driver.zeroTail
    split_ifs
    · exact h
    · refine h.pokes hg _ fun q hq => ⟨?_, (zeroTail_writes hg hr hlt q hq).2⟩
      have hj : new_size / s.bs < (s.image.chainOf e).length :=
        (Nat.div_lt_iff_lt_mul hg.bs_pos).mpr (hlt.trans_le (len_le_chain hg hr))
      have hb := List.getElem_mem hj
      have hpos := behind_position hg (hr.owns.data _ hb) fun he => hne (he ▸ hb)
      have hin := (zeroRun_within _ _ _ q hq).1
      rw [Driver.zeroStart, List.getD_eq_getElem _ _ hj] at hin
      omega
  rcases Nat.lt_or_gt_of_ne hsize with hgt | hlt
  · exact h.onlyTable hg (reblocked_grown hg hr hgt)
  · exact (hzero hlt).onlyTable ((SameFrame.zeroTail s e new_size).geometry hg) (reblocked_shrunk hg hr hlt)

theorem rootRule : TableRule (fun s t => t.root = s.root) (fun _ => True) fun _ _ _ => True where
  refl _ := rfl
  trans h h' := h'.trans h
  keeps _ _ := trivial
  cell _ _ := trivial
  addFree _ _ := rfl
  putFAT _ _ := rfl

theorem clearCells_root (s : Fs) (l : List ℕ) : (s.clearCells l).root = s.root :=
  rootRule.clearCells trivial fun _ _ => trivial

theorem extend_root (s : Fs) (b : ℕ) (fs : List ℕ) : (s.extend b fs).root = s.root :=
  rootRule.extend trivial (fun _ => trivial) fun _ _ _ => trivial

theorem reblocked_root (s : Fs) (e : DirEntry) (new_size : ℕ) : (s.reblocked e new_size).root = s.root := by
  have hzero : (s.zeroTail e new_size).root = s.root := by
    unfold Driver.zeroTail
    split_ifs
    · rfl
    · exact pokes_root _ _
  simp only [Driver.reblocked]
  split_ifs
  · exact clearCells_root _ _
  · exact hzero
  · rfl
  · exact (clearCells_root _ _).trans hzero
  · exact extend_root _ _ _

theorem resized_root (hg : Geometry s) (hstart : s.root.start = s.superblock.startBlock) (new_size : ℕ) :
    (s.resized s.root (320 * s.image.rootSlot) new_size).root = s.root.setLength new_size := by
  have hframe := SameFrame.reblocked s s.root new_size
  unfold Driver.resized
  split_ifs with hsame
  · rw [← hsame, setLength_self]
  · rw [← hframe.rootSlot, storeEntry_root (hframe.geometry hg), hframe.superblock, DirEntry.setLength_start,
      if_pos hstart, reblocked_root]
    rfl

theorem RootSynced.resized (h : RootSynced s) (hw : WellFormed s)
    (hstart : s.root.start = s.superblock.startBlock) {k : ℕ} (hk : s.IsSlot k) (hread : s.image.Readable (s.entry k))
    (hcopy : ¬ s.CopiesRoot k) (new_size : ℕ) : RootSynced (s.resized (s.entry k) (320 * k) new_size) := by
  have hg := hw.geometry
  have hframe := SameFrame.reblocked s (s.entry k) new_size
  have hroot := reblocked_root s (s.entry k) new_size
  unfold Driver.resized
  split_ifs with hsame
  · exact h
  · rcases h.storable hw hk hread hcopy with rfl | ⟨htakes, hne⟩
    · have hdot := h.dot
      rw [hdot] at hframe hroot ⊢
      have hstored := storeRoot_synced (s := s.reblocked s.root new_size) (hframe.geometry hg)
        (by rw [hroot, hframe.superblock]; exact hstart) new_size
      rwa [hroot, hframe.rootSlot] at hstored
    · have htakes' := hframe.takes htakes
      apply (h.reblocked hw hread (htakes.apart hcopy) hsame).storeEntry (hframe.geometry hg) htakes'.slot
        htakes'.behind
      intro he
      exact absurd (he.trans (congrArg Superblock.startBlock hframe.superblock)) hne

theorem RootSynced.written (h : RootSynced s) (hw : WellFormed s)
    (hstart : s.root.start = s.superblock.startBlock) {k : ℕ} (hk : s.IsSlot k) (hread : s.image.Readable (s.entry k))
    (hcopy : ¬ s.CopiesRoot k) (buffer : List UInt8) (offset : ℕ)
    (hin : offset / s.bs < (s.newChain (s.entry k) (max (s.entry k).len (offset + buffer.length))).length) :
    RootSynced (s.written (s.entry k) (320 * k) buffer offset) := by
  have hg := hw.geometry
  have hresized := h.resized hw hstart hk hread hcopy (max (s.entry k).len (offset + buffer.length))
  have hframe := SameFrame.resized s (s.entry k) (320 * k) (max (s.entry k).len (offset + buffer.length))
  have hfree : ∀ f ∈ s.freeList, s.image.IsData f := fun f hf => hw.free_data hf
  have hdata := newChain_data hfree hread (max (s.entry k).len (offset + buffer.length))
  simp only [Driver.written]
  generalize hsize : max (s.entry k).len (offset + buffer.length) = size at *
  rcases h.storable hw hk hread hcopy with rfl | ⟨htakes, hstart'⟩
  · have hroot := resized_root hg hstart size
    have hframe' :=
      hframe.trans (.pokes _ (spans s.bs ((s.newChain (s.entry s.image.rootSlot) size).drop (offset / s.bs))
      (offset % s.bs) buffer))
    have hpokes := pokes_root (s.resized (s.entry s.image.rootSlot) (320 * s.image.rootSlot) size)
      (spans s.bs ((s.newChain (s.entry s.image.rootSlot) size).drop (offset / s.bs)) (offset % s.bs) buffer)
    rw [← h.dot] at hroot
    rw [hroot] at hpokes
    have hstored := storeRoot_synced (hframe'.geometry hg)
      (by rw [hpokes, hframe'.superblock, h.dot]; exact hstart) size
    rw [hpokes, hframe'.rootSlot] at hstored
    exact hstored
  · have hne : s.image.startBlock ∉ s.newChain (s.entry k) size := by
      apply newChain_apart _ (htakes.apart hcopy)
      exact (hw.image.owns _ .root).fat_ne_zero _ (startBlock_mem hw)
    have hdrop : (s.newChain (s.entry k) size).drop (offset / s.bs) ≠ [] := by
      rw [ne_eq, List.drop_eq_nil_iff]
      omega
    have hpokes := hresized.pokes (hframe.geometry hg)
      (spans s.bs ((s.newChain (s.entry k) size).drop (offset / s.bs)) (offset % s.bs) buffer) fun q hq => by
        obtain ⟨b, hb, h₁, h₂⟩ := spans_within s.bs _ _ buffer hdrop (Nat.mod_lt offset hg.bs_pos).le q hq
        have hb' := List.mem_of_mem_drop hb
        have hpos := behind_position hg (hdata b hb') fun he => hne (he ▸ hb')
        have hend := hg.block_small (hdata b hb').2
        rw [hframe.rootSlot]
        omega
    have hframe' := hframe.trans (.pokes _ (spans s.bs ((s.newChain (s.entry k) size).drop (offset / s.bs))
      (offset % s.bs) buffer))
    have htakes' := hframe'.takes htakes
    apply hpokes.storeEntry (hframe'.geometry hg) htakes'.slot htakes'.behind
    intro he
    rw [hframe'.superblock] at he
    exact absurd he hstart'

theorem RootSynced.removed (h : RootSynced s) (hw : WellFormed s) {k : ℕ} (htakes : s.Takes k)
    (hread : s.image.Readable (s.entry k)) {e : DirEntry} (he : e.start = 0) :
    RootSynced (((s.clearCells (s.image.chain k)).addFree (s.image.chain k).length).storeEntry e (320 * k)) := by
  have hg := hw.geometry
  have hclear := OnlyTable.clearCells (l := s.image.chain k) hg fun b hb => (hread.owns.data b hb).2
  have hframe := hclear.frame.trans (.addFree _ ((s.image.chain k).length : ℕ))
  have htakes' := hframe.takes htakes
  apply ((h.onlyTable hg hclear).addFree _).storeEntry (hframe.geometry hg) htakes'.slot htakes'.behind
  intro hs
  rw [hframe.superblock, hg.startBlock, he] at hs
  omega

end Outcomes

/-- Calls that write an entry of the root and leave the cache or another entry
behind: `utimens` on one of its two entries, unless the root has these times,
or on a copy of another length; and `rename` of one of the two. -/
def Call.Outdates : Call → Fs → Prop
  | .utimens path time_now, s => ∃ k, s.lookup path = .ok k ∧
      ((k = s.image.rootSlot ∨ k = s.image.rootSlot + 1) ∧ stamped s.root time_now ≠ s.root ∨
        (s.entry k).start = s.superblock.startBlock ∧ (s.entry k).length ≠ s.root.length)
  | .rename srcpath destpath, s => (∃ k, s.lookup srcpath = .ok k ∧ (k = s.image.rootSlot ∨ k = s.image.rootSlot + 1)) ∧
      s.TakesName destpath
  | _, _ => False

/-- Calls that have the cached length refreshed from another entry of the root:
a copy of another length is read, or the root is stored or made longer through a copy. -/
def Call.Refreshes : Call → Fs → Prop
  | .write path buffer offset, s => ∃ k, s.lookup path = .ok k ∧ s.CopiesRoot k ∧
      ¬ s.TooLarge (s.entry k) (writtenSize (s.entry k) buffer offset)
  | .truncate path size, s => ∃ k, s.lookup path = .ok k ∧ s.CopiesRoot k ∧ (s.entry k).len ≠ toSize size ∧
      ¬ s.TooLarge (s.entry k) (toSize size)
  | .read path _ _, s => ∃ k, s.lookup path = .ok k ∧ (s.entry k).start = s.superblock.startBlock ∧
      (s.entry k).length ≠ s.root.length
  | .rename srcpath destpath, s => (∃ k, s.lookup srcpath = .ok k) ∧ s.lookup destpath = .error (-ENOENT) ∧
      s.HasPlace destpath ∧ ∃ p, Home s destpath p ∧ s.freedSlot p = none ∧ s.CopiesRoot p
  | _, _ => False

section Calls
variable {s t : Fs}

theorem root_stuffed (hw : WellFormed s) : s.Stuffed s.image.rootSlot := by
  have hlen : 2 * sizeofDirEntry ≤ (s.entry s.image.rootSlot).len := hw.image.root_len
  have hcount : 2 ≤ s.image.count s.image.rootSlot := by
    rw [Image.count, Nat.le_div_iff_mul_le (by decide)]
    exact hlen
  have hslot := hw.image.root_slotAt hw.image.epb_pos
  refine ⟨hcount, s.image.rootSlot, Image.mem_slotsIn.mpr ⟨0, by omega, hslot⟩, ?_⟩
  have hd : (s.entry s.image.rootSlot).isDirectory := hw.image.root_directory
  have hname : (s.entry s.image.rootSlot).name.toStr = dotName := hw.image.dot
  have hfile : (s.entry s.image.rootSlot).isFile = false := by
    have hcode : (s.entry s.image.rootSlot).type =
        FileType.Directory.code := by simpa [DirEntry.isDirectory] using hd
    simp [DirEntry.isFile, hcode, FileType.code]
  have hpos : 0 < (s.entry s.image.rootSlot).len := by
    simp only [sizeofDirEntry] at hlen
    omega
  have hne : dotName ≠ dotDotName := by decide
  simp [Driver.stuff, hfile, hd, hname, hne, hpos]

theorem Fresh.create_synced {r : NewFileResult} (h : RootSynced t) (hg : Geometry t) (hr : Fresh t r)
    (modes : BitVec 32) : RootSynced (t.storeEntry { r.entry with modes := modes } r.offset) := by
  obtain ⟨⟨k, hoffset, hk⟩, ⟨f, hf, hlow, -⟩, -⟩ := hr
  rw [hoffset]
  apply h.storeEntry hg hk.slot hk.behind
  intro he
  have hstart : (f : ℤ) = t.superblock.startBlock := hf.symm.trans he
  rw [hg.startBlock] at hstart
  have hs : t.image.startBlock = t.fatBlocks + 1 := rfl
  omega

theorem Fresh.mkdir_synced {r : NewFileResult} (h : RootSynced t) (hg : Geometry t) (hr : Fresh t r) :
    RootSynced (t.storeEntry (r.parent.setName dotDotName) (mul32 r.entry.start t.bs)) := by
  obtain ⟨-, ⟨f, hf, hlow, hhigh⟩, hparent⟩ := hr
  have hE := hg.epb_pos
  have hdiv : f * t.image.epb / t.image.epb = f := Nat.mul_div_cancel _ hE
  have hs : t.image.startBlock = t.image.fatBlocks + 1 := rfl
  have hslot : t.IsSlot (f * t.image.epb) := by
    rw [Driver.IsSlot, hdiv]
    exact ⟨by omega, hhigh⟩
  have hposition : mul32 r.entry.start t.bs = 320 * (f * t.image.epb) := by
    rw [hf, hg.mul32_block hhigh, ← hg.epb_mul]
    ring
  rw [hposition]
  exact h.storeEntry hg hslot (behind_of_block hg hslot (by omega)) hparent

theorem RootSynced.file_takes (h : RootSynced s) (hw : WellFormed s) {k : ℕ} (hk : s.IsSlot k)
    (hfile : (s.entry k).isDirectory = false) : s.Takes k := by
  have hroot : (s.entry s.image.rootSlot).isDirectory := hw.image.root_directory
  rcases slot_cases hw.geometry hk with rfl | rfl | ht
  · exact absurd (hroot.symm.trans hfile) (by simp)
  · rw [h.dotdot, DirEntry.setName_isDirectory, ← h.dot, hroot] at hfile
    exact absurd hfile (by simp)
  · exact ht

theorem RootSynced.unstuffed_takes (h : RootSynced s) (hw : WellFormed s) {k : ℕ} (hk : s.IsSlot k)
    (hempty : ¬ s.Stuffed k) : s.Takes k := by
  rcases slot_cases hw.geometry hk with rfl | rfl | ht
  · exact absurd (root_stuffed hw) hempty
  · have hsame : s.entry (s.image.rootSlot + 1) = (s.entry s.image.rootSlot).setName dotDotName := by
      rw [h.dot, h.dotdot]
    have hslots : s.image.slots (s.image.rootSlot + 1) = s.image.slots s.image.rootSlot := by
      have hentry : s.image.entry (s.image.rootSlot + 1) = (s.image.entry s.image.rootSlot).setName dotDotName := hsame
      simp only [Image.slots, Image.chain, Image.count, hentry]
      rfl
    have hcount : s.image.count (s.image.rootSlot + 1) = s.image.count s.image.rootSlot := by
      have hlen := congrArg List.length hslots
      simpa only [Image.slots, Image.slotsIn, List.length_map, List.length_range] using hlen
    have hstuffed : s.Stuffed (s.image.rootSlot + 1) := by
      rw [Driver.Stuffed, hcount, hslots]
      exact root_stuffed hw
    exact absurd hstuffed hempty
  · exact ht

theorem Renamed.synced (hw : WellFormed s) (h : RootSynced s) (hstart : s.root.start = s.superblock.startBlock)
    {srcpath destpath : Str} (hs : s.Clean srcpath) (hd : ∀ k, s.lookup srcpath = .ok k → s.Receives destpath)
    (hout : ¬ (Call.rename srcpath destpath).Outdates s) (hrefresh : ¬ (Call.rename srcpath destpath).Refreshes s)
    {status : ℤ} (hr : Renamed s srcpath destpath status t) : RootSynced t := by
  have hg := hw.geometry
  have hsource : ∀ {k}, s.lookup srcpath = .ok k → s.TakesName destpath → s.Takes k := fun {k} hk hname =>
    ((slot_cases hg (lookup_slot hw hs hk)).resolve_left fun he => hout ⟨⟨k, hk, .inl he⟩, hname⟩).resolve_left
      fun he => hout ⟨⟨k, hk, .inr he⟩, hname⟩
  cases hr with
  | failed => exact h
  | @replaced k d hk hdest hfile =>
    obtain ⟨hopens, -⟩ := hd k hk
    have htakes := h.file_takes hw (lookup_slot hw hopens.1 hdest) hfile
    have hremoved := h.removed hw htakes (hopens.2 d hdest hfile) (e := (s.entry d).setStart 0) (by simp [toInt32])
    have hframe : SameFrame s (s.removed d) :=
      ((SameFrame.clearCells s _).trans (.addFree _ _)).trans (.storeEntry _ _ _)
    exact hremoved.moved (hframe.geometry hg) _ (hframe.takes htakes)
      (hframe.takes (hsource hk (.inl ⟨d, hdest, hfile⟩)))
  | @placed k type times r t hk hdest ht hr =>
    have hplace := ht.hasPlace hr
    obtain ⟨h₁, h₂⟩ := ht.synced hw h hstart ((hd k hk).2 hdest)
      (fun p hp hnone _ hcopy => hrefresh ⟨⟨k, hk⟩, hdest, hplace, p, hp, hnone, hcopy⟩) rfl
    obtain ⟨k', hoffset, hk'⟩ := h₂ hr
    rw [hoffset]
    exact h₁.moved (ht.frame.1.geometry hg) _ (ht.frame.1.takes hk')
      (ht.frame.1.takes (hsource hk (.inr ⟨hdest, hplace⟩)))

theorem setName_stamped_inj {e : DirEntry} {name : Str} {time_now : BitVec 64}
    (h : stamped (e.setName name) time_now = e.setName name) : stamped e time_now = e := by
  have htimes := congrArg DirEntry.times h
  change ({ e.times with accessed := time_now, modified := time_now } : Times) = e.times at htimes
  rw [stamped, htimes]

theorem RootSynced.restored (h : RootSynced s) (hw : WellFormed s) (hstart : s.root.start = s.superblock.startBlock)
    {k : ℕ} (hk : s.IsSlot k) (hlen : (s.entry k).start = s.superblock.startBlock →
      (s.entry k).length = s.root.length) : RootSynced (s.storeEntry (s.entry k) (320 * k)) := by
  have hg := hw.geometry
  rcases slot_cases hg hk with rfl | rfl | htakes
  · rw [h.dot]
    have hstored := storeRoot_synced hg hstart s.root.len
    rwa [setLength_self] at hstored
  · have hroot : (s.storeEntry (s.entry (s.image.rootSlot + 1)) (320 * (s.image.rootSlot + 1))).root =
        s.root := by
      rw [storeEntry_root hg, h.dotdot, if_pos ((DirEntry.setName_start _ _).trans hstart)]
      rfl
    have hframe := SameFrame.storeEntry s (s.entry (s.image.rootSlot + 1)) (320 * (s.image.rootSlot + 1))
    constructor
    · rw [hframe.rootSlot, hroot, storeEntry_entry hg hk, if_neg (by omega), if_neg (by omega)]
      exact h.dot
    · rw [hframe.rootSlot, hroot, storeEntry_entry hg hk, if_pos rfl]
      exact h.dotdot
  · exact h.storeEntry hg hk htakes.behind hlen

/-- Stamping an entry leaves the copies of the root alike just when the root
has these times, or the entry is not one of the root's two and not a copy of another length. -/
theorem RootSynced.stamped_iff (h : RootSynced s) (hw : WellFormed s) (hstart : s.root.start = s.superblock.startBlock)
    {k : ℕ} (hk : s.IsSlot k) (time_now : BitVec 64) :
    RootSynced (s.storeEntry (stamped (s.entry k) time_now) (320 * k)) ↔
      ¬ ((k = s.image.rootSlot ∨ k = s.image.rootSlot + 1) ∧ stamped s.root time_now ≠ s.root ∨
        (s.entry k).start = s.superblock.startBlock ∧ (s.entry k).length ≠ s.root.length) := by
  have hg := hw.geometry
  have hframe := SameFrame.storeEntry s (stamped (s.entry k) time_now) (320 * k)
  rcases slot_cases hg hk with rfl | rfl | htakes
  · have hiff := storeRoot_synced_iff (e := stamped s.root time_now) hg hstart
    have hsame : ({ s.root with length := (stamped s.root time_now).length } : DirEntry) = s.root := rfl
    rw [hsame] at hiff
    rw [h.dot, hiff]
    constructor
    · rintro he (⟨-, hne⟩ | ⟨-, hne⟩)
      exacts [hne he, hne rfl]
    · exact fun hno => not_not.mp fun hne => hno (.inl ⟨.inl rfl, hne⟩)
  · constructor
    · rintro hafter (⟨-, hne⟩ | ⟨-, hne⟩)
      · have hdotdot := hafter.dotdot
        have hstart' : (stamped (s.root.setName dotDotName) time_now).start = s.superblock.startBlock := hstart
        rw [hframe.rootSlot, storeEntry_root hg, storeEntry_entry hg hk, if_pos rfl, h.dotdot,
          if_pos hstart'] at hdotdot
        exact hne (setName_stamped_inj hdotdot)
      · exact hne (by rw [h.dotdot]; rfl)
    · intro hno
      have hsame : stamped s.root time_now = s.root := not_not.mp fun hne => hno (.inl ⟨.inr rfl, hne⟩)
      have hsame' : stamped (s.entry (s.image.rootSlot + 1)) time_now = s.entry (s.image.rootSlot + 1) := by
        rw [h.dotdot]
        exact congrArg (·.setName dotDotName) hsame
      rw [hsame']
      exact h.restored hw hstart hk fun _ => by rw [h.dotdot]; rfl
  · have hbehind := htakes.behind
    constructor
    · rintro hafter (⟨hroot, -⟩ | ⟨hs, hne⟩)
      · omega
      · have hdot := congrArg DirEntry.length hafter.dot
        have hs' : (stamped (s.entry k) time_now).start = s.superblock.startBlock := hs
        rw [hframe.rootSlot, storeEntry_root hg, if_pos hs', storeEntry_entry hg hk, if_neg (by omega),
          if_neg (by omega), h.dot] at hdot
        exact hne hdot.symm
    · exact fun hno => h.storeEntry hg hk hbehind fun hs => not_not.mp fun hne => hno (.inr ⟨hs, hne⟩)

end Calls

theorem Ended.synced {s t : Fs} {c : Call} {status : ℤ} (hw : WellFormed s) (hload : s.load = s) (h : RootSynced s)
    (hclean : c.Clean s) (hout : ¬ c.Outdates s) (hrefresh : ¬ c.Refreshes s) (he : Ended s c status t) :
    RootSynced t := by
  have hg := hw.geometry
  have hstart : s.root.start = s.superblock.startBlock := by
    rw [← h.dot]
    exact entry_start_root hw
  have hcreated : ∀ {path length type r u}, Created s.load (simplifyPath path) length type r u →
      SameFrame s u ∧ RootSynced u ∧ (0 ≤ r.status → Fresh u r) := fun {path _ _ _ _} hc => by
    rw [hload] at hc
    exact hc.synced hw h hstart (clean_simplified hw path)
  cases he with
  | found | unwritten | unsized | linked | kept | unstamped | unread | listed =>
    rw [hload]
    exact h
  | uncreated _ hc | unmade hc => exact (hcreated hc).2.1
  | created _ hc hok =>
    obtain ⟨hframe, h₁, h₂⟩ := hcreated hc
    exact (h₂ hok).create_synced h₁ (hframe.geometry hg) _
  | made hc hok =>
    obtain ⟨hframe, h₁, h₂⟩ := hcreated hc
    exact (h₂ hok).mkdir_synced h₁ (hframe.geometry hg)
  | @written path buffer offset k status hk hroom hin hsum =>
    rw [hload]
    refine h.written hw hstart (lookup_slot hw hclean.1 hk) (hclean.2 k hk trivial)
      (fun hcopy => hrefresh ⟨k, hk, hcopy, ?_⟩)
      buffer offset hin
    rwa [writtenSize_natCast _ hsum]
  | @sized path size k hk hroom =>
    rw [hload]
    by_cases hsame : (s.entry k).len = toSize size
    · rw [Driver.resized, if_pos hsame]
      exact h
    · exact h.resized hw hstart (lookup_slot hw hclean.1 hk) (hclean.2 k hk trivial)
        (fun hcopy => hrefresh ⟨k, hk, hcopy, hsame, hroom⟩) _
  | @unlinked path k hk hfile =>
    rw [hload]
    exact h.removed hw (h.file_takes hw (lookup_slot hw hclean.1 hk) hfile) (hclean.2 k hk hfile) (by simp [toInt32])
  | unnamed => exact h
  | @removed path k _ hk hdir hempty =>
    rw [hload]
    exact h.removed hw (h.unstuffed_takes hw (lookup_slot hw hclean.1 hk) hempty) (hclean.2 k hk hdir) rfl
  | renamed hr =>
    rw [hload] at hr
    exact hr.synced hw h hstart hclean.1 hclean.2 hout hrefresh
  | @stamped path time_now k hk =>
    rw [hload]
    exact (h.stamped_iff hw hstart (lookup_slot hw hclean hk) time_now).mpr fun hno => hout ⟨k, hk, hno⟩
  | @read path size k offset status hk =>
    rw [hload]
    exact h.restored hw hstart (lookup_slot hw hclean hk) fun hs => not_not.mp fun hne => hrefresh ⟨k, hk, hs, hne⟩
  | known => exact h
  | counted => exact ⟨h.dot, h.dotdot⟩

section Sample
open FatSample

end Sample

end Thorn.FatDriver

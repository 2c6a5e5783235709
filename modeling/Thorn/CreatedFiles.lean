import Thorn.FoundPaths
import Thorn.ParentCopies
import Thorn.PlacedEntries

set_option autoImplicit false

namespace Thorn.FatDriver
open ByteStore Paths FatTypes FatOperations FatImage LinkedChain

/-- A file system in which no freed slot keeps a block number, with its root loaded. -/
structure Sound (s : Fs) : Prop where
  wf : WellFormed s
  tidy : s.image.Tidy
  root : s.root = s.entry s.image.rootSlot

/-- A sound file system in which no two entries of a directory share a name. -/
structure Orderly (s : Fs) : Prop extends Sound s where
  unique : s.image.UniqueNames

/-- `v` is `s` with the vacant slot `k` in directory `p`, which has been given a further slot
behind its last entry if need be. -/
structure Vacant (s v : Fs) (p k : ℕ) : Prop where
  sound : Sound v
  unique : s.image.UniqueNames → v.image.UniqueNames
  frame : SameFrame s v
  fat : ∀ b < s.blockCount, v.fat b = s.fat b
  live : v.image.Live p
  directory : (v.entry p).isDirectory
  slot : k ∈ (v.image.slots p).drop (v.image.copies p)
  vacant : v.image.free (v.entry k)
  lives : ∀ i, v.image.Live i ↔ s.image.Live i
  named : ∀ names q, s.image.Named names q → v.image.Named names q
  namesIn : v.image.namesIn p = s.image.namesIn p

/-- `t` is `v` with the entry `e` in slot `k`, the only one to have block `f`. -/
structure Filled (v t : Fs) (k f : ℕ) (e : DirEntry) : Prop where
  frame : SameFrame v t
  fat : ∀ b < v.blockCount, t.fat b = if b = f then FINAL else v.fat b
  entry : ∀ i, v.IsSlot i → i ≠ k → i / v.image.epb ≠ f → t.entry i = v.entry i
  new : t.entry k = e
  start : e.start = f
  root : t.root = t.entry t.image.rootSlot

section Vacant
variable {s v t : Fs} {p k f : ℕ} {fs : List ℕ} {e : DirEntry}

theorem vacant_freed (h : Sound s) (hp : s.image.Live p) (hd : (s.entry p).isDirectory)
    (hk : k ∈ (s.image.slots p).drop (s.image.copies p)) (hfree : s.image.free (s.entry k)) :
    Vacant s s p k where
  sound := h
  unique := id
  frame := .refl s
  fat _ _ := rfl
  live := hp
  directory := hd
  slot := hk
  vacant := hfree
  lives _ := .rfl
  named _ _ hq := hq
  namesIn := rfl

theorem vacant_grown (h : Sound s) (hp : s.image.Live p) (hd : (s.entry p).isDirectory)
    (hroom : ¬ s.FullDir p) : Vacant s (s.entered p (s.endSlot p) zeroEntry true true) p (s.endSlot p) := by
  have hw := h.wf.image
  have hg := entered_edit h.wf h.tidy hp hd hroom zeroEntry_start
  have hle : s.image.copies p ≤ (s.image.slots p).length := by
    rw [Image.slots, Image.slotsIn, List.length_map, List.length_range]
    exact hw.copies_le hp hd
  exact {
    sound := {
      wf := entered_wellFormed h.wf h.tidy h.root hp hd hroom zeroEntry_start
      tidy := hg.tidy hw hp hd h.tidy
      root := entered_root h.wf h.root hp hd hroom zeroEntry_start }
    unique := hg.uniqueNames hw hp hd
    frame := .entered s p _ zeroEntry true true
    fat := fun b hb => hg.fat b hb
    live := ((hg.rearranged hw hp hd).live_iff hw p).mpr hp
    directory := (hg.alike hw hp hd hp).2.2.1.trans hd
    slot := by
      rw [hg.slots hw hp hd hp, if_pos rfl, hg.shape.copies, List.drop_append_of_le_length hle]
      simp
    vacant := free_of_start hg.empty
    lives := (hg.rearranged hw hp hd).live_iff hw
    named := fun _ _ hq => hg.named hw hp hd hq
    namesIn := hg.namesIn hw hp hd hp }

theorem grown_copied (h : Sound s) (hp : s.image.Live p) (hd : (s.entry p).isDirectory)
    (hroom : ¬ s.FullDir p) (hc : s.image.Copied) :
    (s.entered p (s.endSlot p) zeroEntry true true).image.Copied := by
  have hentry := fun i => (grown_entry h.wf.geometry (h.wf.image.live_data hp) (endSlot_takes h.wf hp hd hroom) i :
    (s.entered p (s.endSlot p) zeroEntry true true).entry i = _)
  refine (entered_edit h.wf h.tidy hp hd hroom zeroEntry_start).copied h.wf.image hp hd hc fun hpr => ?_
  change Image.Alike ((s.entered p (s.endSlot p) zeroEntry true true).entry (s.image.rootSlot + 1))
    ((s.entered p (s.endSlot p) zeroEntry true true).entry s.image.rootSlot)
  rw [hentry, hentry, if_neg (by omega), if_pos ⟨hpr, by rw [hpr]⟩, if_pos hpr.symm]
  exact ⟨⟨rfl, rfl⟩, rfl⟩

theorem Vacant.added (h : Vacant s v p k) (hfree : s.freeList = f :: fs) (hs : WellFormed s)
    (ht : Filled v t k f e) (hsize : v.image.blocksFor e.len = 1)
    (hempty : e.isDirectory → e.len = sizeofDirEntry ∧ (t.entry (f * v.image.epb)).name.toStr = dotDotName) :
    v.image.Added t.image p k f where
  shape := ht.frame.shape
  block := h.frame.isData.mpr (hs.free_data (hfree ▸ List.mem_cons_self))
  unused := by
    have hf := mem_freeList.mp (hfree ▸ List.mem_cons_self : f ∈ s.freeList)
    exact (h.fat f hf.1).trans hf.2
  fat := ht.fat
  parent := h.live
  directory := h.directory
  slot := h.slot
  vacant := h.vacant
  entry := ht.entry
  start := (congrArg DirEntry.start ht.new).trans ht.start
  size := (congrArg (fun e : DirEntry => v.image.blocksFor e.len) ht.new).trans hsize
  empty hd := by
    have hd' : e.isDirectory := (congrArg DirEntry.isDirectory ht.new).symm.trans hd
    exact ⟨(congrArg DirEntry.len ht.new).trans (hempty hd').1, (hempty hd').2⟩
  free q hq hd i hi hik hif := by
    have hvw := h.sound.wf.image
    apply tidy_stays h.sound.tidy hq hd hi hif
    apply ht.entry i (hvw.slot_data hq (List.mem_of_mem_drop hi)) hik
    intro he
    have hmem := hvw.slot_mem hq (List.mem_of_mem_drop hi)
    have hzero : v.image.fat f = 0 := by
      have hf := mem_freeList.mp (hfree ▸ List.mem_cons_self : f ∈ s.freeList)
      exact (h.fat f hf.1).trans hf.2
    exact (hvw.owns q hq).fat_ne_zero f (he ▸ hmem) hzero

/-- What an edit of the directory `p` is to leave: an orderly file system with the same
directories, in which `p` lists these names. -/
structure Relisted (s t : Fs) (p : ℕ) (names : Set Str) : Prop where
  orderly : Orderly t
  named : ∀ dir q, s.image.Named dir q → (s.entry q).isDirectory → t.image.Named dir q
  directory : (t.entry p).isDirectory
  names : t.image.namesIn p = names

theorem Vacant.filled_sound (h : Vacant s v p k) (hfree : s.freeList = f :: fs) (hs : WellFormed s)
    (ht : Filled v t k f e) (hsize : v.image.blocksFor e.len = 1)
    (hempty : e.isDirectory → e.len = sizeofDirEntry ∧ (t.entry (f * v.image.epb)).name.toStr = dotDotName) :
    Sound t := by
  have hvw := h.sound.wf.image
  have hadd := h.added hfree hs ht hsize hempty
  exact ⟨⟨ht.frame.geometry h.sound.wf.geometry, hadd.wellFormed hvw, fun _ => ht.root⟩,
    hadd.tidy hvw h.sound.tidy, ht.root⟩

theorem Vacant.filled (h : Vacant s v p k) (hu : s.image.UniqueNames) (hfree : s.freeList = f :: fs) (hs : WellFormed s)
    (ht : Filled v t k f e) (hsize : v.image.blocksFor e.len = 1)
    (hempty : e.isDirectory → e.len = sizeofDirEntry ∧ (t.entry (f * v.image.epb)).name.toStr = dotDotName)
    (hnew : e.name.toStr ∉ s.image.namesIn p) : Relisted s t p (insert e.name.toStr (s.image.namesIn p)) := by
  have hvw := h.sound.wf.image
  have hadd := h.added hfree hs ht hsize hempty
  have hname : (t.image.entry k).name.toStr = e.name.toStr := congrArg (·.name.toStr) ht.new
  exact {
    orderly := {
      toSound := h.filled_sound hfree hs ht hsize hempty
      unique := by
        refine hadd.uniqueNames hvw (h.unique hu) fun i hi he => hnew ?_
        rw [← h.namesIn, ← hname, ← he]
        exact ⟨i, hi, rfl⟩ }
    named := fun dir q hq _ => hadd.named hvw (h.named dir q hq)
    directory := (congrArg DirEntry.isDirectory (hadd.entry_live hvw h.live)).trans h.directory
    names := by rw [hadd.namesIn hvw, hname, h.namesIn] }

end Vacant

section Placed
variable {s v t : Fs} {p k f : ℕ} {fs : List ℕ} {own e : DirEntry} {grow : Bool}

theorem free_start (hw : WellFormed s) (hf : f ∈ s.freeList) (he : e.start = f) :
    e.start ≠ s.superblock.startBlock := by
  rw [he, hw.geometry.startBlock]
  exact_mod_cast (free_behind hw hf).ne'

theorem entered_block (s : Fs) (p k : ℕ) (own : DirEntry) (grow : Bool) {f : ℕ} (ho : own.start = f) :
    s.entered p k own grow false = (s.entered p k own grow true).putFAT FINAL f := by
  rw [← ho]
  rfl

theorem SameFrame.symm {t : Fs} (h : SameFrame s t) :
    SameFrame t s := ⟨h.superblock.symm, h.offset.symm, h.length.symm⟩

def Driver.placed (s : Fs) (p k f : ℕ) (own : DirEntry) (grow : Bool) : Fs :=
  (s.allocated f).entered p k own grow false

theorem placed_frame (s : Fs) (p k f : ℕ) (own : DirEntry) (grow : Bool) :
    SameFrame s (s.placed p k f own grow) :=
  ((SameFrame.putFAT s _ _).trans (.addFree _ _)).trans (.entered _ p k own grow false)

theorem placed_fat (hw : WellFormed s) (hp : s.image.Live p) (hk : s.Takes k) (hfree : s.freeList = f :: fs)
    (ho : own.start = f) {b : ℕ} (hb : b < s.blockCount) :
    (s.placed p k f own grow).fat b = if b = f then FINAL else s.fat b := by
  have hg := hw.geometry
  have hf := (mem_freeList.mp (hfree ▸ List.mem_cons_self : f ∈ s.freeList)).1
  have haframe := (OnlyTable.allocated hg hf).frame
  have hframe := haframe.trans (.entered _ p k own grow true)
  rw [Driver.placed, entered_block _ _ _ _ _ ho,
    putFAT_final_fat (hframe.geometry hg) (hframe.blockCount ▸ hf) (hframe.blockCount ▸ hb),
    entered_fat (haframe.geometry hg) (haframe.isSlot.mpr (hw.image.live_data hp)) (haframe.takes hk) grow
      (haframe.blockCount ▸ hb), allocated_fat hg hf hb]
  split_ifs <;> rfl

theorem placed_entry (hw : WellFormed s) (hfree : s.freeList = f :: fs) (ho : own.start = f) {i : ℕ}
    (hi : s.IsSlot i) : (s.placed p k f own grow).entry i =
      ((s.allocated f).entered p k own grow true).entry i := by
  have hg := hw.geometry
  have hf := (mem_freeList.mp (hfree ▸ List.mem_cons_self : f ∈ s.freeList)).1
  have hframe := (OnlyTable.allocated hg hf).frame.trans (.entered _ p k own grow true)
  have honly := OnlyTable.putFAT (hframe.geometry hg) FINAL (hframe.blockCount ▸ hf)
  rw [Driver.placed, entered_block _ _ _ _ _ ho, honly.entry (hframe.geometry hg) (hframe.isSlot.mpr hi)]

theorem placed_root (ho : own.start = f) :
    (s.placed p k f own grow).root = ((s.allocated f).entered p k own grow true).root := by
  rw [Driver.placed, entered_block _ _ _ _ _ ho, putFAT_root]

theorem placed_freed (h : Sound s) (hp : s.image.Live p) (hk : s.Takes k) (hfree : s.freeList = f :: fs)
    (ho : own.start = f) : Filled s (s.placed p k f own false) k f own := by
  have hg := h.wf.geometry
  have hmem : f ∈ s.freeList := hfree ▸ List.mem_cons_self
  have hf := (mem_freeList.mp hmem).1
  have haframe := (OnlyTable.allocated hg hf).frame
  have hframe := placed_frame s p k f own false
  have hentry : ∀ i, s.IsSlot i →
      (s.placed p k f own false).entry i = if i = k then own else s.entry i := fun i hi => by
    have hstored : ((s.allocated f).entered p k own false true).entry i = if i = k then own
        else (s.allocated f).entry i := stored_entry (haframe.geometry hg) (haframe.takes hk) i
    rw [placed_entry h.wf hfree ho hi, hstored, allocated_entry hg hf hi]
  exact {
    frame := hframe
    fat := fun b hb => placed_fat h.wf hp hk hfree ho hb
    entry := fun i hi hik _ => (hentry i hi).trans (if_neg hik)
    new := (hentry k hk.slot).trans (if_pos rfl)
    start := ho
    root := by
      have hbehind := hk.behind
      have hne : own.start ≠ (s.allocated f).superblock.startBlock := by
        rw [haframe.superblock]
        exact free_start h.wf hmem ho
      have hroot : ((s.allocated f).entered p k own false true).root = (s.allocated f).root :=
        stored_root (haframe.geometry hg) hne
      rw [placed_root ho, hroot, hframe.rootSlot, hentry _ (rootSlot_isSlot h.wf), if_neg (by omega), ← h.root]
      rfl }

theorem placed_grown (h : Sound s) (hp : s.image.Live p) (hk : s.Takes k)
    (hkp : k ≠ p) (hfree : s.freeList = f :: fs) (ho : own.start = f) :
    Filled (s.entered p k zeroEntry true true) (s.placed p k f own true) k f own := by
  have hg := h.wf.geometry
  have hmem : f ∈ s.freeList := hfree ▸ List.mem_cons_self
  have hf := (mem_freeList.mp hmem).1
  have hslot := h.wf.image.live_data hp
  have haframe := (OnlyTable.allocated hg hf).frame
  have hpa : (s.allocated f).IsSlot p := haframe.isSlot.mpr hslot
  have hka := haframe.takes hk
  have hframe := placed_frame s p k f own true
  have hvframe := SameFrame.entered s p k zeroEntry true true
  have hbehind := hk.behind
  have haentry := fun i hi => allocated_entry hg hf (k := i) hi
  have hnot : ¬ (p = s.image.rootSlot ∧ k = p + 1) := fun h => by omega
  have hentry : ∀ i, s.IsSlot i → (s.placed p k f own true).entry i =
      if i = k then own else (s.entered p k zeroEntry true true).entry i := fun i hi => by
    rw [placed_entry h.wf hfree ho hi, grown_entry (haframe.geometry hg) hpa hka, grown_entry hg hslot hk,
      haentry p hslot, haentry i hi, haframe.rootSlot]
    by_cases hik : i = k
    · rw [hik, if_neg hkp, if_neg hnot, if_pos rfl, if_pos rfl]
    · rw [if_neg hik, if_neg hik, if_neg hik]
  exact {
    frame := hvframe.symm.trans hframe
    fat := fun b hb => by
      rw [placed_fat h.wf hp hk hfree ho (hvframe.blockCount ▸ hb),
        grown_fat hg hslot hk (hvframe.blockCount ▸ hb)]
    entry := fun i hi hik _ => (hentry i (hvframe.isSlot.mp hi)).trans (if_neg hik)
    new := (hentry k hk.slot).trans (if_pos rfl)
    start := ho
    root := by
      have hne : own.start ≠ (s.allocated f).superblock.startBlock := by
        rw [haframe.superblock]
        exact free_start h.wf hmem ho
      have hroot := grown_root (haframe.geometry hg)
        (show (s.allocated f).root = _ by rw [haframe.rootSlot, haentry _ (rootSlot_isSlot h.wf), ← h.root]; rfl)
        (by rw [haframe.rootSlot, haentry _ (rootSlot_isSlot h.wf), haframe.superblock]; exact entry_start_root h.wf)
        hpa ((parent_place h.wf hp (OnlyTable.allocated hg hf)).imp_right And.right) hka hne
      rw [placed_root ho, hroot, (haframe.trans (.entered _ p k own true true)).rootSlot, hframe.rootSlot,
        placed_entry h.wf hfree ho (rootSlot_isSlot h.wf)] }

theorem Filled.stored (h : Filled v t k f own) (hg : Geometry v) (hk : v.Takes k) (he : e.start = f)
    (hne : e.start ≠ v.superblock.startBlock) : Filled v (t.storeEntry e (320 * k)) k f e where
  frame := h.frame.trans (.storeEntry _ _ _)
  fat b hb := by
    rw [storeEntry_fat (h.frame.geometry hg) (h.frame.isSlot.mpr hk.slot) e (h.frame.blockCount ▸ hb), h.fat b hb]
  entry i hi hik hif := by
    rw [stored_entry (h.frame.geometry hg) (h.frame.takes hk), if_neg hik, h.entry i hi hik hif]
  new := (stored_entry (h.frame.geometry hg) (h.frame.takes hk) k).trans (if_pos rfl)
  start := he
  root := by
    have hbehind := hk.behind
    rw [stored_root (h.frame.geometry hg) (by rw [h.frame.superblock]; exact hne),
      (h.frame.trans (.storeEntry _ e (320 * k))).rootSlot,
      stored_entry (h.frame.geometry hg) (h.frame.takes hk), if_neg (by omega), h.root, h.frame.rootSlot]

theorem Filled.opened (h : Filled v t k f own) (hg : Geometry v) (hf : v.Takes (f * v.image.epb))
    (hkf : k / v.image.epb ≠ f) (hroot : e.start = v.superblock.startBlock → e.length = t.root.length) :
    Filled v (t.storeEntry e (320 * (f * v.image.epb))) k f own where
  frame := h.frame.trans (.storeEntry _ _ _)
  fat b hb := by
    rw [storeEntry_fat (h.frame.geometry hg) (h.frame.isSlot.mpr hf.slot) e (h.frame.blockCount ▸ hb), h.fat b hb]
  entry i hi hik hif := by
    have hi' : i ≠ f * v.image.epb := by
      rintro rfl
      exact hif (Nat.mul_div_cancel _ hg.epb_pos)
    rw [stored_entry (h.frame.geometry hg) (h.frame.takes hf), if_neg hi', h.entry i hi hik hif]
  new := by
    have hk : k ≠ f * v.image.epb := by
      rintro rfl
      exact hkf (Nat.mul_div_cancel _ hg.epb_pos)
    rw [stored_entry (h.frame.geometry hg) (h.frame.takes hf), if_neg hk, h.new]
  start := h.start
  root := by
    have hbehind := hf.behind
    have hsame : (t.storeEntry e (320 * (f * v.image.epb))).root = t.root := by
      rw [storeEntry_root (h.frame.geometry hg)]
      split_ifs with hs
      · rw [hroot (by rw [hs, h.frame.superblock])]
      · rfl
    rw [hsame, (h.frame.trans (.storeEntry _ e (320 * (f * v.image.epb)))).rootSlot,
      stored_entry (h.frame.geometry hg) (h.frame.takes hf), if_neg (by omega), h.root, h.frame.rootSlot]

/-- The entry that `newFile` reports has the block `f`, and stands in a slot `k` of `p` that was vacant in `v`. -/
structure Housed (s v u : Fs) (path : Str) (length : ℕ) (type : FileType) (p k f : ℕ) (fs : List ℕ)
    (r : NewFileResult) : Prop where
  target : Target s path p f fs
  vacant : Vacant s v p k
  copied : s.image.Copied → v.image.Copied
  filled : Filled v u k f (ownEntry path length type f)
  takes : v.Takes k
  entry : r.entry = ownEntry path length type f
  offset : r.offset = 320 * k
  parent : r.parent = v.entry p

/-- A directory with a freed slot, or room behind its last entry, takes the new entry without a further block. -/
theorem created_housed (h : Sound s) {path : Str} {length : ℕ} {type : FileType} {r : NewFileResult} {u : Fs}
    (hp : s.lookupParent path = .ok p) (hlive : s.image.Live p) (hplace : s.freedSlot p ≠ none ∨ ¬ s.FullDir p)
    (hc : Created s path length type r u) (hneg : ¬ r.status < 0) :
    ∃ v k f fs, Housed s v u path length type p k f fs r := by
  have hg := h.wf.geometry
  have hslot := h.wf.image.live_data hlive
  cases hc with
  | lost hlost hne => exact absurd (walkDirs_error hlost) hneg
  | long => exact absurd (show (-ENAMETOOLONG : ℤ) < 0 by decide) hneg
  | full => exact absurd (show (-ENOSPC : ℤ) < 0 by decide) hneg
  | astray => exact absurd (show (-ENOTDIR : ℤ) < 0 by decide) hneg
  | @recycled p' f k fs ht hk =>
    obtain rfl := Except.ok.inj (ht.parent.symm.trans hp)
    have hmem := allocated_freedSlot h.wf ht.free hlive hk
    have hf := mem_freeList.mp (ht.free ▸ List.mem_cons_self : f ∈ s.freeList)
    have hfree : s.image.free (s.entry k) = true := by
      have hfound := List.find?_some hk
      have hf0 := (h.wf.free_data (ht.free ▸ List.mem_cons_self)).1
      rw [allocated_entry hg hf.1 (h.wf.image.slot_data hlive (List.mem_of_mem_drop hmem)),
        allocated_free hg hf.1 (by omega), Bool.and_eq_true] at hfound
      exact hfound.1
    have htakes : s.Takes k :=
      ⟨h.wf.image.slot_data hlive (List.mem_of_mem_drop hmem), child_behind h.wf hlive hmem⟩
    exact ⟨s, k, f, fs, ht, vacant_freed h hlive ht.directory hmem hfree, id,
      placed_freed h hlive htakes ht.free (ownEntry_start hg path length type hf.1), htakes, rfl, rfl,
      allocated_entry hg hf.1 hslot⟩
  | crowded => exact absurd (show (-ENOSPC : ℤ) < 0 by decide) hneg
  | @appended p' f fs ht hk hroom hlen =>
    obtain rfl := Except.ok.inj (ht.parent.symm.trans hp)
    have hf := mem_freeList.mp (ht.free ▸ List.mem_cons_self : f ∈ s.freeList)
    have htakes := endSlot_takes h.wf hlive ht.directory hroom
    have hparent : grownEntry ((s.allocated f).entry p') true =
        (s.entered p' (s.endSlot p') zeroEntry true true).entry p' := by
      rw [grown_entry hg hslot htakes, if_pos rfl, allocated_entry hg hf.1 hslot]
    exact ⟨_, s.endSlot p', f, fs, ht, vacant_grown h hlive ht.directory hroom,
      grown_copied h hlive ht.directory hroom,
      placed_grown h hlive htakes (endSlot_ne h.wf hlive ht.directory hroom) ht.free
        (ownEntry_start hg path length type hf.1),
      (SameFrame.entered s p' _ zeroEntry true true).takes htakes, rfl, rfl, hparent⟩
  | stuck => exact absurd (show (-ENOSPC : ℤ) < 0 by decide) hneg
  | @expanded p' f g fs ht hk hfull henough =>
    obtain rfl := Except.ok.inj (ht.parent.symm.trans hp)
    refine absurd hplace ?_
    push Not
    refine ⟨?_, hfull⟩
    have hnone := (freedSlot_reuses h.wf hlive ht.free).mp hk
    rw [freedSlot_live h.wf hlive, List.find?_eq_none]
    intro k hk hfree
    have hzero : (s.entry k).start = 0 := h.tidy p' hlive ht.directory k hk hfree
    refine hnone ⟨k, hk, hfree, ?_⟩
    have hf0 := (h.wf.free_data (ht.free ▸ List.mem_cons_self)).1
    rw [hzero, firstFree_cons hg ht.free]
    omega

theorem Housed.name {u : Fs} {path : Str} {length : ℕ} {type : FileType} {r : NewFileResult}
    (h : Housed s v u path length type p k f fs r) (hnul : (0 : UInt8) ∉ lastName path) :
    (ownEntry path length type f).name.toStr = lastName path := setName_toStr _ h.target.short hnul

theorem Housed.stored {u : Fs} {path : Str} {r : NewFileResult} (h : Housed s v u path 0 .File p k f fs r)
    (hw : WellFormed s) (modes : BitVec 32) :
    Filled v (u.storeEntry { r.entry with modes := modes } r.offset) k f
      { ownEntry path 0 .File f with modes := modes } := by
  have hne := free_start hw (h.target.free ▸ List.mem_cons_self) h.filled.start
  rw [← h.vacant.frame.superblock] at hne
  rw [h.entry, h.offset]
  exact h.filled.stored h.vacant.sound.wf.geometry h.takes h.filled.start hne

theorem Housed.opened {u : Fs} {path : Str} {length : ℕ} {type : FileType} {r : NewFileResult}
    (h : Housed s v u path length type p k f fs r) (hw : WellFormed s) :
    Filled v (u.storeEntry (r.parent.setName dotDotName) (mul32 r.entry.start u.bs)) k f
      (ownEntry path length type f) ∧
    (u.storeEntry (r.parent.setName dotDotName) (mul32 r.entry.start u.bs)).entry (f * v.image.epb) =
      (v.entry p).setName dotDotName := by
  have hmem : f ∈ s.freeList := h.target.free ▸ List.mem_cons_self
  have hf := mem_freeList.mp hmem
  have hv := h.vacant.sound.wf
  have hg := hv.geometry
  have huframe := h.filled.frame
  have htakes : v.Takes (f * v.image.epb) := by
    have := h.vacant.frame.takes (block_takes hw hmem)
    rwa [h.vacant.frame.epb]
  have hfv : v.fat f = 0 := (h.vacant.fat f hf.1).trans hf.2
  have happart : ∀ i, v.image.Live i → f ∉ v.image.chain i := fun i hi hm =>
    (hv.image.owns i hi).fat_ne_zero f hm hfv
  have hkf : k / v.image.epb ≠ f := fun he =>
    happart p h.vacant.live (he ▸ hv.image.slot_mem h.vacant.live (List.mem_of_mem_drop h.vacant.slot))
  have hoffset : mul32 r.entry.start u.bs = 320 * (f * v.image.epb) := by
    have hfu : f < u.blockCount := by rw [huframe.blockCount, h.vacant.frame.blockCount]; exact hf.1
    rw [h.entry, h.filled.start, (huframe.geometry hg).mul32_block hfu, huframe.bs, ← hg.epb_mul]
    ring
  have hroot : ((v.entry p).setName dotDotName).start = v.superblock.startBlock →
      ((v.entry p).setName dotDotName).length = u.root.length := by
    intro hs
    by_cases hpr : p = v.image.rootSlot
    · have hslot := rootSlot_isSlot hv
      have hbehind := h.takes.behind
      have hrf : v.image.rootSlot / v.image.epb ≠ f := fun he => by
        obtain ⟨o, ho, -, hs⟩ := hv.image.live_mem .root
        exact happart o ho (he ▸ hv.image.slot_mem ho hs)
      rw [h.filled.root, huframe.rootSlot, h.filled.entry _ hslot (by omega) hrf, hpr]
      rfl
    · exact absurd hs (live_start hv h.vacant.live hpr)
  rw [hoffset, h.parent]
  refine ⟨h.filled.opened hg htakes hkf hroot, ?_⟩
  rw [stored_entry (huframe.geometry hg) (huframe.takes htakes), if_pos rfl]

end Placed

end Thorn.FatDriver

import Thorn.EntryRules
import Thorn.FreeCount
import Thorn.RenameLosses

set_option autoImplicit false

namespace Thorn.FatDriver
open ByteStore Paths FatTypes FatOperations FatImage LinkedChain

/-- The counter says that nothing has been counted, or it is the number of free cells. -/
def CountKnown (s : Fs) : Prop := s.blocksFree = -1 ∨ s.blocksFree = s.freeList.length

/-- `newFile` gets as far as taking a block. -/
def Driver.TakesBlock (s : Fs) (path : Str) : Prop :=
  s.freeList ≠ [] ∧ (s.lookupParent path = .error (-ENOENT) ∨
  ∃ p, s.lookupParent path = .ok p ∧ (lastName path).length ≤ THORNFAT_PATH_MAX)

/-- `newFile` puts the block it took back and leaves it out of the count. -/
def Driver.GivesBack (s : Fs) (path : Str) (length : ℕ) : Prop := ∃ p f fs, Target s path p f fs ∧
  (s.allocated f).freedSlot p = none ∧ (¬ s.FullDir p ∧ (s.entry p).len ≤ s.bs - sizeofDirEntry ∧ fs = [] ∨
    s.FullDir p ∧ fs.length < 2 + updiv length s.bs)

/-- The directory gets a further block for an entry that is moved there. -/
def Driver.Expands (s : Fs) (path : Str) : Prop :=
  ∃ p, Home s path p ∧ s.freedSlot p = none ∧ s.FullDir p ∧ s.freeList ≠ []

section Created
variable {s t : Fs} {path : Str} {length : ℕ} {type : FileType} {r : NewFileResult}

theorem Drifts.entered (hg : Geometry s) {p k : ℕ} (hp : s.IsSlot p) (hk : s.IsSlot k) (e : DirEntry)
    (grow : Bool) : Drifts s (s.entered p k e grow true) 0 0 := by
  have hstore := storeEntry hg hk e
  cases grow with
  | false => exact hstore
  | true =>
    have hparent :=
      storeEntry (hstore.frame.geometry hg) (hstore.frame.isSlot.mpr hp) (grownEntry (s.entry p) true)
    exact (hstore.trans hparent).cast (add_zero _) (add_zero _)

theorem Drifts.entered_block (hg : Geometry s) {p k f : ℕ} (hp : s.IsSlot p) (hk : s.IsSlot k) {e : DirEntry}
    (grow : Bool) (hf : f < s.blockCount) (he : e.start = f) :
    Drifts s (s.entered p k e grow false) 0 (if s.fat f = 0 then -1 else 0) := by
  have hstored := entered hg hp hk e grow
  have hg' := hstored.frame.geometry hg
  have hlt := hstored.frame.blockCount ▸ hf
  have hfat : (s.entered p k e grow true).fat f = s.fat f := by
    have hstore := storeEntry hg hk e
    cases grow with
    | false => exact storeEntry_fat hg hk e hf
    | true => exact (storeEntry_fat (hstore.frame.geometry hg) (hstore.frame.isSlot.mpr hp) _
        (hstore.frame.blockCount ▸ hf)).trans (storeEntry_fat hg hk e hf)
  have heq : s.entered p k e grow false = (s.entered p k e grow true).putFAT FINAL f := by
    rw [← he]
    rfl
  rw [heq]
  split_ifs with hz
  · exact (hstored.trans (putFAT_taken hg' hlt (by decide) (hfat.trans hz))).cast (add_zero _) (zero_add _)
  · exact (hstored.trans (putFAT_used hg' hlt (by decide) fun h => hz (hfat.symm.trans h))).cast (add_zero _)
      (add_zero _)

section Target
variable {p f : ℕ} {fs : List ℕ}

theorem Drifts.taken (hg : Geometry s) (hfree : s.freeList = f :: fs) : Drifts s (s.allocated f) (-1) (-1) :=
  .allocated hg (hfree ▸ List.mem_cons_self)

/-- A block that is taken and put back stays out of the count. -/
theorem Drifts.put_back (hg : Geometry s) (hfree : s.freeList = f :: fs) :
    Drifts s ((s.allocated f).putFAT 0 f) (-1) 0 := by
  have hf := (mem_freeList.mp (hfree ▸ List.mem_cons_self : f ∈ s.freeList)).1
  have htaken := taken hg hfree
  have hput := putFAT_released (htaken.frame.geometry hg) (htaken.frame.blockCount ▸ hf) (by
    rw [allocated_fat hg hf hf, if_pos rfl]
    decide)
  exact (htaken.trans hput).cast (add_zero _) (neg_add_cancel _)

theorem Target.takesBlock (ht : Target s path p f fs) : s.TakesBlock path :=
  ⟨by rw [ht.free]; exact List.cons_ne_nil _ _, .inr ⟨p, ht.parent, ht.short⟩⟩

theorem Target.givesBack_iff (ht : Target s path p f fs) : s.GivesBack path length ↔
    (s.allocated f).freedSlot p = none ∧ (¬ s.FullDir p ∧ (s.entry p).len ≤ s.bs - sizeofDirEntry ∧ fs = [] ∨
      s.FullDir p ∧ fs.length < 2 + updiv length s.bs) := by
  constructor
  · rintro ⟨p', f', fs', ht', h⟩
    obtain ⟨rfl, rfl⟩ := List.cons.inj (ht.free.symm.trans ht'.free)
    obtain rfl := Except.ok.inj (ht.parent.symm.trans ht'.parent)
    exact h
  · exact fun h => ⟨p, f, fs, ht, h⟩

theorem Target.placed_drifts (ht : Target s path p f fs) (hw : WellFormed s) (hp : s.IsSlot p) {k : ℕ}
    (hk : s.IsSlot k) (grow : Bool) :
    Drifts s ((s.allocated f).entered p k (ownEntry path length type f) grow false) (-1) (-1) := by
  have hg := hw.geometry
  have hf := (mem_freeList.mp (ht.free ▸ List.mem_cons_self : f ∈ s.freeList)).1
  have htaken := Drifts.taken hg ht.free
  have hentered := Drifts.entered_block (htaken.frame.geometry hg) (htaken.frame.isSlot.mpr hp)
    (htaken.frame.isSlot.mpr hk) grow (htaken.frame.blockCount ▸ hf) (ownEntry_start hg path length type hf)
  rw [allocated_fat hg hf hf, if_pos rfl, if_neg (by decide)] at hentered
  exact (htaken.trans hentered).cast (add_zero _) (add_zero _)

theorem Target.expanded_drifts {g : ℕ} (ht : Target s path p f (g :: fs)) (hw : WellFormed s) (hp : s.image.Live p) :
    Drifts s ((s.allocated f).expandedBoth p ((s.image.chain p).getLastD 0) f g (ownEntry path length type f))
      (-2) (-2) := by
  have hg := hw.geometry
  have hmem : f ∈ s.freeList := ht.free ▸ List.mem_cons_self
  have hgmem : g ∈ s.freeList := by
    rw [ht.free]
    exact List.mem_cons_of_mem _ List.mem_cons_self
  have hgf : g ≠ f := by
    have hnodup := freeList_nodup s
    rw [ht.free] at hnodup
    rintro rfl
    exact (List.nodup_cons.mp hnodup).1 List.mem_cons_self
  have hf := (mem_freeList.mp hmem).1
  obtain ⟨hglt, hgzero⟩ := mem_freeList.mp hgmem
  have hlast := (hw.image.owns p hp).data _ (getLastD_mem (hw.image.owns p hp).ne_nil)
  have hcell : toInt32 ((s.image.chain p).getLastD 0 : ℕ) ≠ 0 := by
    rw [hg.toInt32_block hlast.2]
    have := hlast.1
    omega
  have htaken := Drifts.taken hg ht.free
  have hga := htaken.frame.geometry hg
  have hlink := htaken.trans ((Drifts.putFAT_used hga (htaken.frame.blockCount ▸ hf) hcell (by
    rw [allocated_fat hg hf hf, if_pos rfl]
    decide)).trans (.addFree _ (-1)))
  -- the second block is still free then
  have hzero : (((s.allocated f).putFAT ((s.image.chain p).getLastD 0 : ℕ) f).addFree (-1)).fat g = 0 := by
    rw [addFree_fat, putFAT_fat hga (htaken.frame.blockCount ▸ hf) (htaken.frame.blockCount ▸ hglt), if_neg hgf,
      allocated_fat hg hf hglt, if_neg hgf]
    exact hgzero
  have hstart : ((ownEntry path length type f).setStart g).start = g := by
    rw [DirEntry.setStart_start, hg.toInt32_block hglt]
  have hentered := Drifts.entered_block (hlink.frame.geometry hg) (hlink.frame.isSlot.mpr (hw.image.live_data hp))
    (hlink.frame.isSlot.mpr (block_takes hw hmem).slot) true (hlink.frame.blockCount ▸ hglt) hstart
  rw [if_pos hzero] at hentered
  exact (hlink.trans hentered).cast (by norm_num) (by norm_num)

end Target

/-- By how much `newFile` changes the counter and the free cells: alike, unless it gives a block back. -/
theorem Created.drifts (hw : WellFormed s)
    (hstay : s.image.StaysLive s.image.rootSlot (pathNames path).dropLast) (hc : Created s path length type r t) :
    ¬ s.TakesBlock path ∧ Drifts s t 0 0 ∨
      s.TakesBlock path ∧ ¬ s.GivesBack path length ∧ (∃ n, 1 ≤ n ∧ Drifts s t (-n) (-n)) ∨
      s.GivesBack path length ∧ Drifts s t (-1) 0 := by
  have hg := hw.geometry
  have hlive : ∀ {p}, s.lookupParent path = .ok p → s.image.Live p := fun hp => hstay.walkDirs .root hp
  cases hc with
  | lost hl hne =>
    refine .inl ⟨?_, .refl s⟩
    rintro ⟨-, he | ⟨p, hp, -⟩⟩
    · exact hne (Except.error.inj (hl.symm.trans he))
    · cases hl.symm.trans hp
  | long hl hlong =>
    refine .inl ⟨?_, .refl s⟩
    rintro ⟨-, he | ⟨p, -, hshort⟩⟩
    · cases hl.symm.trans he
    · omega
  | full hfree => exact .inl ⟨fun h => h.1 hfree, .refl s⟩
  | @astray f fs hfree hno =>
    refine .inr (.inl ⟨⟨by rw [hfree]; exact List.cons_ne_nil _ _, ?_⟩, ?_, 1, le_rfl, .taken hg hfree⟩)
    · exact hno.imp id fun ⟨p, hp, hshort, _⟩ => ⟨p, hp, hshort⟩
    · rintro ⟨p, f', fs', ht, -⟩
      rcases hno with he | ⟨p', hp', -, hdir⟩
      · cases he.symm.trans ht.parent
      · obtain rfl := Except.ok.inj (ht.parent.symm.trans hp')
        rw [ht.directory] at hdir
        cases hdir
  | @recycled p f k fs ht hk =>
    have hslot := (ht.touches hk hw hstay).slot hw (houses_of_stays hw hstay)
    refine .inr (.inl ⟨ht.takesBlock, ?_, 1, le_rfl,
      ht.placed_drifts hw (hw.image.live_data (hlive ht.parent)) hslot false⟩)
    rw [ht.givesBack_iff, hk]
    exact fun h => Option.some_ne_none _ h.1
  | @crowded p f ht hk hroom hlen =>
    exact .inr (.inr ⟨ht.givesBack_iff.mpr ⟨hk, .inl ⟨hroom, hlen, rfl⟩⟩, .put_back hg ht.free⟩)
  | @appended p f fs ht hk hroom hlen =>
    have hp := hlive ht.parent
    refine .inr (.inl ⟨ht.takesBlock, ?_, 1, le_rfl, ht.placed_drifts hw (hw.image.live_data hp)
      (endSlot_takes hw hp ht.directory hroom).slot true⟩)
    rw [ht.givesBack_iff]
    rintro ⟨-, ⟨-, hlen', hnil⟩ | ⟨hfull, -⟩⟩
    · exact hlen hlen' hnil
    · exact hroom hfull
  | @stuck p f fs ht hk hfull hfew =>
    exact .inr (.inr ⟨ht.givesBack_iff.mpr ⟨hk, .inr ⟨hfull, hfew⟩⟩, .put_back hg ht.free⟩)
  | @expanded p f g fs ht hk hfull henough =>
    refine .inr (.inl ⟨ht.takesBlock, ?_, 2, by decide, ht.expanded_drifts hw (hlive ht.parent)⟩)
    rw [ht.givesBack_iff]
    rintro ⟨-, ⟨-, -, hnil⟩ | ⟨-, hfew⟩⟩
    · cases hnil
    · rw [List.length_cons] at hfew
      omega

/-- `newFile` spoils the count: it takes a block while nothing is counted, or it gives one back. -/
def Driver.NewFileMiscounts (s : Fs) (path : Str) (length : ℕ) : Prop :=
  s.TakesBlock path ∧ s.blocksFree = -1 ∨ s.GivesBack path length

theorem Created.known_iff (hw : WellFormed s)
    (hstay : s.image.StaysLive s.image.rootSlot (pathNames path).dropLast)
    (hs : CountKnown s) (hc : Created s path length type r t) :
    CountKnown t ↔ ¬ s.NewFileMiscounts path length := by
  unfold CountKnown at hs ⊢
  unfold Driver.NewFileMiscounts
  rcases hc.drifts hw hstay with ⟨hno, h⟩ | ⟨htakes, hkeeps, n, hn, h⟩ | ⟨hback, h⟩
  · have hback : ¬ s.GivesBack path length := by
      rintro ⟨p, f, fs, ht, -⟩
      exact hno ⟨by rw [ht.free]; exact List.cons_ne_nil _ _, .inr ⟨p, ht.parent, ht.short⟩⟩
    have hcounter := h.counter
    have hfree := h.free
    refine iff_of_true (by omega) ?_
    rintro (⟨h, -⟩ | h)
    · exact hno h
    · exact hback h
  · have hcounter := h.counter
    have hfree := h.free
    rw [or_iff_left hkeeps, and_iff_right htakes]
    omega
  · have hcounter := h.counter
    have hfree := h.free
    have hpos : 1 ≤ s.freeList.length := by
      obtain ⟨p, f, fs, ht, -⟩ := hback
      rw [ht.free]
      exact Nat.succ_pos _
    exact iff_of_false (by omega) (not_not.mpr (.inr hback))

end Created

section Resized
variable {s t : Fs} {e : DirEntry} {size : ℕ}

/-- `resize` spoils the count: it empties a file and counts its first block as free, or the
number of blocks changes while nothing is counted. -/
def Driver.ResizeMiscounts (s : Fs) (e : DirEntry) (size : ℕ) : Prop := e.len ≠ size ∧ ¬ s.TooLarge e size ∧
  if size = 0 then s.blocksFree ≠ -1 ∨ s.freeList ≠ []
  else (s.image.chainOf e).length ≠ updiv size s.bs ∧ s.blocksFree = -1

theorem resized_known_iff (hr : s.image.Readable e) (hs : CountKnown s) (hroom : ¬ s.TooLarge e size)
    (h : Drifts s t (Drifts.counted s e size) (Drifts.released s e size)) :
    CountKnown t ↔ ¬ s.ResizeMiscounts e size := by
  have hcounter := h.counter
  have hfree := h.free
  have hm := hr.owns.length_pos
  unfold CountKnown at hs ⊢
  simp only [Drifts.counted, Drifts.released] at hcounter hfree
  unfold Driver.ResizeMiscounts
  by_cases hne : e.len = size
  · have hnot : ¬ (e.len ≠ size ∧ size = 0) := fun h => h.1 hne
    rw [if_pos hne] at hcounter hfree
    rw [if_neg hnot] at hfree
    exact iff_of_true (by omega) fun h => h.1 hne
  rw [if_neg hne] at hcounter hfree
  by_cases hz : size = 0
  · have hnil : s.freeList ≠ [] ↔ s.freeList.length ≠ 0 := by rw [Ne, Ne, List.length_eq_zero_iff]
    rw [if_pos hz] at hcounter ⊢
    rw [if_pos ⟨hne, hz⟩] at hfree
    rw [and_iff_right hne, and_iff_right hroom, hnil]
    omega
  rw [if_neg hz] at hcounter hfree ⊢
  rw [if_neg fun h => hz h.2] at hfree
  rw [and_iff_right hne, and_iff_right hroom]
  by_cases heq : (s.image.chainOf e).length = updiv size s.bs
  · rw [if_pos heq] at hcounter hfree
    exact iff_of_true (by omega) fun h => h.1 heq
  rw [if_neg heq] at hcounter hfree
  rw [and_iff_right heq]
  split_ifs at hcounter hfree <;> omega

end Resized

def Call.Miscounts : Call → Fs → Prop
  | .create path _, s => s.Misses path ∧ s.NewFileMiscounts (simplifyPath path) 0
  | .mkdir path, s => s.NewFileMiscounts (simplifyPath path) sizeofDirEntry
  | .write path buffer offset, s => ∃ k, s.lookup path = .ok k ∧
      s.ResizeMiscounts (s.entry k) (writtenSize (s.entry k) buffer offset)
  | .truncate path size, s => ∃ k, s.lookup path = .ok k ∧ s.ResizeMiscounts (s.entry k) (toSize size)
  | .unlink path, s => (∃ k, s.lookup path = .ok k ∧ (s.entry k).isDirectory = false) ∧ s.blocksFree = -1
  | .rmdir path, s => ¬ (path = [slash] ∨ path = []) ∧
      (∃ k, s.lookup path = .ok k ∧ (s.entry k).isDirectory ∧ ¬ s.Stuffed k) ∧ s.blocksFree = -1
  | .rename srcpath destpath, s => (∃ k, s.lookup srcpath = .ok k) ∧
      ((∃ d, s.lookup destpath = .ok d ∧ (s.entry d).isDirectory = false) ∧ s.blocksFree = -1 ∨
        s.lookup destpath = .error (-ENOENT) ∧ s.Expands destpath ∧ s.blocksFree ≠ -1)
  | _, _ => False

section Calls
variable {s t : Fs}

theorem known_still (hs : CountKnown s) (h : Drifts s t 0 0) : CountKnown t := by
  have hcounter := h.counter
  have hfree := h.free
  unfold CountKnown at hs ⊢
  omega

theorem known_freed (hs : CountKnown s) {n : ℕ} (hn : 1 ≤ n) (h : Drifts s t n n) :
    CountKnown t ↔ ¬ s.blocksFree = -1 := by
  have hcounter := h.counter
  have hfree := h.free
  unfold CountKnown at hs ⊢
  omega

theorem known_lost (hs : CountKnown s) (h : Drifts s t 0 (-1)) : CountKnown t ↔ ¬ s.blocksFree ≠ -1 := by
  have hcounter := h.counter
  have hfree := h.free
  unfold CountKnown at hs ⊢
  omega

theorem known_stored (hg : Geometry s) {k : ℕ} (hk : s.IsSlot k) (e : DirEntry) :
    CountKnown (s.storeEntry e (320 * k)) ↔ CountKnown s := by
  have h := Drifts.storeEntry hg hk e
  have hcounter := h.counter
  have hfree := h.free
  unfold CountKnown
  omega

theorem only_entry {path : Str} {k : ℕ} {P : ℕ → Prop} (hk : s.lookup path = .ok k) :
    (∃ k, s.lookup path = .ok k ∧ P k) ↔ P k := by
  constructor
  · rintro ⟨k', hk', h⟩
    rwa [Except.ok.inj (hk.symm.trans hk')]
  · exact fun h => ⟨k, hk, h⟩

theorem target_load {path : Str} {p f : ℕ} {fs : List ℕ} : Target s.load path p f fs ↔ Target s path p f fs :=
  ⟨fun h => ⟨h.parent, h.short, h.directory, h.free⟩, fun h => ⟨h.parent, h.short, h.directory, h.free⟩⟩

theorem newFileMiscounts_load {path : Str} {length : ℕ} :
    s.load.NewFileMiscounts path length ↔ s.NewFileMiscounts path length := by
  have hback : s.load.GivesBack path length ↔ s.GivesBack path length :=
    exists_congr fun p => exists_congr fun f => exists_congr fun fs => and_congr_left' target_load
  exact or_congr Iff.rfl hback

theorem expands_load {path : Str} :
    s.load.Expands path ↔ s.Expands path := exists_congr fun _ => and_congr_left' home_load

theorem create_miscounts_iff {path : Str} {modes : BitVec 32} (hmiss : s.Misses path) :
    (Call.create path modes).Miscounts s ↔ s.load.NewFileMiscounts (simplifyPath path) 0 := by
  rw [newFileMiscounts_load]
  exact and_iff_right hmiss

theorem mkdir_miscounts_iff {path : Str} :
    (Call.mkdir path).Miscounts s ↔ s.load.NewFileMiscounts (simplifyPath path) sizeofDirEntry :=
  newFileMiscounts_load.symm

theorem rename_miscounts_load {srcpath destpath : Str} :
    (Call.rename srcpath destpath).Miscounts s.load ↔ (Call.rename srcpath destpath).Miscounts s :=
  and_congr_right' (or_congr Iff.rfl (and_congr_right' (and_congr_left' expands_load)))

theorem Created.stored_known_iff {path : Str} {length : ℕ} {type : FileType} {r : NewFileResult} (hw : WellFormed s)
    (hstay : s.image.StaysLive s.image.rootSlot (pathNames path).dropLast) (hs : CountKnown s)
    (hc : Created s path length type r t) {k : ℕ} (hk : s.IsSlot k) (e : DirEntry) :
    CountKnown (t.storeEntry e (320 * k)) ↔ ¬ s.NewFileMiscounts path length := by
  have hframe := hc.frame hw hstay
  rw [known_stored (hframe.geometry hw.geometry) (hframe.isSlot.mpr hk), hc.known_iff hw hstay hs]

theorem Renamed.known_iff (hw : WellFormed s) (hs : CountKnown s) {srcpath destpath : Str}
    (hsrc : s.Clean srcpath) (hdest : ∀ k, s.lookup srcpath = .ok k → s.Receives destpath)
    {status : ℤ} (hr : Renamed s srcpath destpath status t) :
    CountKnown t ↔ ¬ (Call.rename srcpath destpath).Miscounts s := by
  have hg := hw.geometry
  cases hr with
  | failed hneg hno =>
    refine iff_of_true hs ?_
    rintro ⟨⟨k, hk⟩, h⟩
    rcases hno with ⟨status', he⟩ | hno
    · cases hk.symm.trans he
    · apply hno
      rcases h with ⟨⟨d, hd, hfile⟩, -⟩ | ⟨hd, ⟨p, ht, -, -, hfree⟩, -⟩
      · exact .inl ⟨d, hd, hfile⟩
      · exact .inr ⟨hd, p, ht, .inr (.inr hfree)⟩
  | @replaced k d hk hd hfile =>
    obtain ⟨hopens, -⟩ := hdest k hk
    have hds := lookup_slot hw hopens.1 hd
    have hread := hopens.2 d hd hfile
    have hfreed : Drifts s (s.removed d) (s.image.chain d).length (s.image.chain d).length := .freed hg hds hread _
    have hmoved := Drifts.moved (hfreed.frame.geometry hg) (hfreed.frame.isSlot.mpr hds)
      (hfreed.frame.isSlot.mpr (lookup_slot hw hsrc hk)) ((s.entry k).setName (baseName destpath))
    rw [known_freed hs hread.owns.length_pos ((hfreed.trans hmoved).cast (add_zero _) (add_zero _))]
    refine not_congr ⟨fun h => ⟨⟨k, hk⟩, .inl ⟨⟨d, hd, hfile⟩, h⟩⟩, ?_⟩
    rintro ⟨-, ⟨-, h⟩ | ⟨hno, -⟩⟩
    · exact h
    · cases hd.symm.trans hno
  | @placed k type times r u hk hd ht hst =>
    have hks := lookup_slot hw hsrc hk
    have hhouses := (hdest k hk).2 hd
    have hnofile : ¬ ∃ d, s.lookup destpath = .ok d ∧ (s.entry d).isDirectory = false := by
      rintro ⟨d, hd', -⟩
      cases hd.symm.trans hd'
    have hmis : (Call.rename srcpath destpath).Miscounts s ↔ s.Expands destpath ∧ s.blocksFree ≠ -1 := by
      constructor
      · rintro ⟨-, ⟨h, -⟩ | ⟨-, h⟩⟩
        · exact absurd h hnofile
        · exact h
      · exact fun h => ⟨⟨k, hk⟩, .inr ⟨hd, h⟩⟩
    have hsame : ∀ {p q}, Home s destpath p → Home s destpath q → p = q := fun {p q} hp hq =>
      Except.ok.inj (hp.parent.symm.trans hq.parent)
    rw [hmis]
    cases ht with
    | lost hneg => exact absurd hneg (not_lt.mpr hst)
    | @recycled p j ht hj =>
      have hjs := (ht.listed hhouses).freedSlot_slot hg hj
      have hentered :=
        Drifts.entered hg (ht.slot hw hhouses) hjs ((newEntry 0 type times).setStart 0) false
      have hmoved :=
        Drifts.moved (hentered.frame.geometry hg) (hentered.frame.isSlot.mpr hjs)
        (hentered.frame.isSlot.mpr hks)
        ((s.entry k).setName (baseName destpath))
      refine iff_of_true (known_still hs ((hentered.trans hmoved).cast (add_zero _) (add_zero _))) ?_
      rintro ⟨⟨q, hq, hnone, -⟩, -⟩
      rw [hsame hq ht, hj] at hnone
      cases hnone
    | @appended p ht hj hroom =>
      have hjs := (ht.listed hhouses).endSlot_slot hg hroom
      have hentered :=
        Drifts.entered hg (ht.slot hw hhouses) hjs ((newEntry 0 type times).setStart 0) true
      have hmoved :=
        Drifts.moved (hentered.frame.geometry hg) (hentered.frame.isSlot.mpr hjs)
        (hentered.frame.isSlot.mpr hks)
        ((s.entry k).setName (baseName destpath))
      refine iff_of_true (known_still hs ((hentered.trans hmoved).cast (add_zero _) (add_zero _))) ?_
      rintro ⟨⟨q, hq, -, hfull, -⟩, -⟩
      rw [hsame hq ht] at hfull
      exact hroom hfull
    | @expanded p f fs ht hj hfull hfree =>
      have hmem : f ∈ s.freeList := hfree ▸ List.mem_cons_self
      obtain ⟨hf, hzero⟩ := mem_freeList.mp hmem
      have hps := ht.slot hw hhouses
      have howns : s.image.Owns (s.entry p) (s.image.chain p) := (ht.listed hhouses).readable.owns
      have hjs := (block_takes hw hmem).slot
      have hlast := howns.data _ (getLastD_mem howns.ne_nil)
      have hlink := Drifts.putFAT_taken (v := ((s.image.chain p).getLastD 0 : ℕ)) hg hf (by
        rw [hg.toInt32_block hlast.2]
        have := hlast.1
        omega) hzero
      have hentered :=
        Drifts.entered (hlink.frame.geometry hg) (hlink.frame.isSlot.mpr hps) (hlink.frame.isSlot.mpr hjs)
        ((newEntry 0 type times).setStart 0) true
      have hboth := hlink.trans hentered
      have hmoved :=
        Drifts.moved (hboth.frame.geometry hg) (hboth.frame.isSlot.mpr hjs) (hboth.frame.isSlot.mpr hks)
        ((s.entry k).setName (baseName destpath))
      have hexp : s.Expands destpath := ⟨p, ht, hj, hfull, by rw [hfree]; exact List.cons_ne_nil _ _⟩
      rw [and_iff_right hexp]
      exact known_lost hs ((hboth.trans hmoved).cast (by norm_num) (by norm_num))

/-- A call made on a well-formed file system that returns. It stops at a directory it cannot read; or
it reads directories and chains as they stand, and stores no bytes at a negative offset. -/
structure Legal (s : Fs) (c : Call) : Prop where
  wf : WellFormed s
  reads : c.Stops s ∨ c.Clean s ∧ c.Forward s
  returns : c.run s ≠ none

def Call.after (s : Fs) (c : Call) : Fs :=
  match c.run s with
  | some (_, t) => t
  | none => s

theorem after_eq {c : Call} {status : ℤ} (h : c.run s = some (status, t)) :
    c.after s = t := by rw [Call.after, h]

theorem after_stops (hw : WellFormed s) {c : Call} (h : c.Stops s) : c.after s = s.load := after_eq (run_stops hw h)

theorem Legal.ended {c : Call} (h : Legal s c) (hstops : ¬ c.Stops s) :
    c.Clean s ∧ c.Forward s ∧ ∃ status, Ended s c status (c.after s) := by
  obtain ⟨hclean, hforward⟩ := h.reads.resolve_left hstops
  obtain ⟨⟨status, t⟩, hrun⟩ := Option.ne_none_iff_exists'.mp h.returns
  rw [after_eq hrun]
  exact ⟨hclean, hforward, status, FatDriver.ended h.wf hclean hforward hrun⟩

theorem ended_known_iff {c : Call} {status : ℤ} (hw : WellFormed s) (hclean : c.Clean s) (hs : CountKnown s)
    (he : Ended s c status t) : CountKnown t ↔ ¬ c.Miscounts s := by
  have hg := hw.load.geometry
  have hs' : CountKnown s.load := hs
  cases he with
  | found hfound => exact iff_of_true hs' fun h => hfound h.1
  | @uncreated path _ r u hmiss hc =>
    rw [create_miscounts_iff hmiss]
    exact hc.known_iff hw.load (clean_simplified hw.load path) hs'
  | @created path _ r u hmiss hc hok =>
    obtain ⟨⟨k, hk, htouch⟩, -⟩ := hc.reports hw.load (clean_simplified hw.load path) hok
    rw [create_miscounts_iff hmiss, hk]
    exact hc.stored_known_iff hw.load (clean_simplified hw.load path) hs'
      (htouch.slot hw.load (houses_of_stays hw.load (clean_simplified hw.load path))) _
  | @unmade path r u hc =>
    rw [mkdir_miscounts_iff]
    exact hc.known_iff hw.load (clean_simplified hw.load path) hs'
  | @made path r u hc hok =>
    obtain ⟨b, hb, hposition⟩ := hc.first_slot hw.load (clean_simplified hw.load path) hok
    rw [mkdir_miscounts_iff, hposition]
    exact hc.stored_known_iff hw.load (clean_simplified hw.load path) hs' (block_takes hw.load hb).slot _
  | unwritten hno =>
    refine iff_of_true hs' ?_
    rintro ⟨k, hk, -, hroom, -⟩
    exact hroom (hno k hk)
  | @written path buffer offset k _ hk hroom hin hsum =>
    have hr : s.load.image.Readable (s.entry k) := hclean.2 k hk trivial
    have hmis : (Call.write path buffer offset).Miscounts s ↔
        s.load.ResizeMiscounts (s.entry k) (max (s.entry k).len (offset + buffer.length)) :=
      writtenSize_natCast (s.entry k) hsum ▸
        only_entry (P := fun k => s.ResizeMiscounts (s.entry k) (writtenSize (s.entry k) buffer offset)) hk
    rw [hmis]
    exact resized_known_iff hr hs' hroom (.written hw.load (lookup_slot hw.load hclean.1 hk) hr hroom hin)
  | unsized _ hno =>
    refine iff_of_true hs' ?_
    rintro ⟨k, hk, -, hroom, -⟩
    exact hroom (hno k hk)
  | @sized path size k hk hroom =>
    have hmis : (Call.truncate path size).Miscounts s ↔ s.load.ResizeMiscounts (s.entry k) (toSize size) :=
      only_entry (P := fun k => s.ResizeMiscounts (s.entry k) (toSize size)) hk
    rw [hmis]
    have hr : s.load.image.Readable (s.entry k) := hclean.2 k hk trivial
    exact resized_known_iff hr hs' hroom (.resized hw.load (lookup_slot hw.load hclean.1 hk) hr hroom)
  | linked _ hdir =>
    refine iff_of_true hs' ?_
    rintro ⟨⟨k, hk, hfile⟩, -⟩
    rw [hdir k hk] at hfile
    cases hfile
  | @unlinked path k hk hfile =>
    have hr : s.load.image.Readable (s.entry k) := hclean.2 k hk hfile
    have hiff := known_freed hs' hr.owns.length_pos
      (.freed hg (lookup_slot hw.load hclean.1 hk) hr ((s.entry k).setStart 0))
    exact hiff.trans (not_congr (and_iff_right ⟨k, hk, hfile⟩).symm)
  | unnamed hpath => exact iff_of_true hs fun h => h.1 hpath
  | kept _ hno =>
    refine iff_of_true hs' ?_
    rintro ⟨-, ⟨k, hk, hdir, hempty⟩, -⟩
    rcases hno k hk with hfile | hstuff
    · rw [hdir] at hfile
      cases hfile
    · exact hempty hstuff
  | @removed path k hpath hk hdir hempty =>
    have hr : s.load.image.Readable (s.entry k) := hclean.2 k hk hdir
    have hiff := known_freed hs' hr.owns.length_pos
      (.freed hg (lookup_slot hw.load hclean.1 hk) hr (((s.entry k).setStart 0).setLength 0))
    exact hiff.trans (not_congr ⟨fun h => ⟨hpath, ⟨k, hk, hdir, hempty⟩, h⟩, fun h => h.2.2⟩)
  | @renamed srcpath destpath _ _ hr =>
    rw [← rename_miscounts_load]
    exact hr.known_iff hw.load hs' hclean.1 fun k hk => (hclean.2 k hk).load
  | unstamped => exact iff_of_true hs' id
  | stamped hk | read hk => exact iff_of_true ((known_stored hg (lookup_slot hw.load hclean hk) _).mpr hs') id
  | unread => exact iff_of_true hs' id
  | listed => exact iff_of_true hs' id
  | known => exact iff_of_true hs id
  | counted => exact iff_of_true (.inr rfl) id

theorem call_known_iff {c : Call} (hs : CountKnown s) (h : Legal s c) :
    CountKnown (c.after s) ↔ c.Stops s ∨ ¬ c.Miscounts s := by
  by_cases hstops : c.Stops s
  · rw [after_stops h.wf hstops]
    exact iff_of_true hs (.inl hstops)
  · obtain ⟨hclean, -, status, he⟩ := h.ended hstops
    rw [or_iff_right hstops]
    exact ended_known_iff h.wf hclean hs he

end Calls

section Starts
variable {α β : Type}

def KeepsCounter (x : Action FlatDevice α) : Prop := ∀ s r t, x s = some (r, t) → t.blocksFree = s.blocksFree

theorem KeepsCounter.pure (a : α) : KeepsCounter (pure a : Action FlatDevice α) := by
  intro s r t h
  rw [(Prod.mk.inj (Option.some.inj h)).2]

theorem KeepsCounter.hang : KeepsCounter (FatDriver.hang : Action FlatDevice α) := by
  intro s r t h
  cases h

theorem KeepsCounter.bind {x : Action FlatDevice α} {f : α → Action FlatDevice β} (hx : KeepsCounter x)
    (hf : ∀ a, KeepsCounter (f a)) : KeepsCounter (x >>= f) := by
  intro s r t h
  obtain ⟨⟨a, u⟩, hxs, hfs⟩ := Option.bind_eq_some_iff.mp h
  exact (hf a u r t hfs).trans (hx s a u hxs)

theorem KeepsCounter.ite {c : Prop} [Decidable c] {x y : Action FlatDevice α} (hx : KeepsCounter x)
    (hy : KeepsCounter y) : KeepsCounter (if c then x else y) := by
  split_ifs
  · exact hx
  · exact hy

theorem KeepsCounter.get : KeepsCounter (get : Action FlatDevice Fs) := by
  intro s r t h
  rw [(Prod.mk.inj (Option.some.inj h)).2]

theorem KeepsCounter.modify {f : Fs → Fs} (hf : ∀ s, (f s).blocksFree = s.blocksFree) :
    KeepsCounter (modify f : Action FlatDevice PUnit) := by
  intro s r t h
  rw [← (Prod.mk.inj (Option.some.inj h)).2]
  exact hf s

theorem keepsCounter_partitionWrite (buffer : List UInt8) (o : ℕ) :
    KeepsCounter (partitionWrite buffer o : Action FlatDevice ℤ) := by
  intro s r t h
  rw [← (Prod.mk.inj (Option.some.inj h)).2]

theorem keepsCounter_writeRecord (bytes : List UInt8) :
    KeepsCounter (writeRecord bytes : Action FlatDevice ℤ) :=
  .bind .get fun _ => .bind (keepsCounter_partitionWrite _ _) fun _ =>
    .ite (.pure _) (.bind (.modify fun _ => rfl) fun _ => .pure _)

theorem keepsCounter_writeMany (n : ℤ) (count : ℕ) :
    KeepsCounter (writeMany n count : Action FlatDevice ℤ) := by
  induction count with
  | zero => exact .pure 0
  | succ count ih =>
    exact .bind .get fun _ => .bind (keepsCounter_partitionWrite _ _) fun _ =>
      .ite (.pure _) (.bind (.modify fun _ => rfl) fun _ => ih)

theorem keepsCounter_initFATLoop (fuel position remaining : ℕ) :
    KeepsCounter (initFATLoop fuel position remaining : Action FlatDevice Unit) := by
  induction fuel generalizing position remaining with
  | zero => exact .hang
  | succ fuel ih =>
    exact .ite (.bind (keepsCounter_partitionWrite _ _) fun _ => ih _ _)
      (.bind (keepsCounter_partitionWrite _ _) fun _ => .pure _)

theorem keepsCounter_format (b : Superblock) : KeepsCounter (format b : Action FlatDevice Bool) :=
  .bind (.modify fun _ => rfl) fun _ => .bind (keepsCounter_writeRecord _) fun _ =>
    .bind (.bind (keepsCounter_initFATLoop _ _ _) fun _ => .bind (.modify fun _ => rfl) fun _ =>
      .bind (keepsCounter_writeMany _ _) fun _ => .bind (keepsCounter_writeMany _ _) fun _ => .pure _) fun _ =>
    .bind (.bind (.modify fun _ => rfl) fun _ => .bind (keepsCounter_writeRecord _) fun _ =>
      .bind (keepsCounter_writeRecord _) fun _ => .pure _) fun _ => .pure _

theorem keepsCounter_partitionClear : KeepsCounter (partitionClear : Action FlatDevice ℤ) := by
  intro s r t h
  rw [← (Prod.mk.inj (Option.some.inj h)).2]

theorem keepsCounter_make (block_size : ℕ) : KeepsCounter (make block_size : Action FlatDevice Bool) :=
  .bind keepsCounter_partitionClear fun _ => .ite (.pure _) (.bind .get fun _ => .ite .hang (.ite (.pure _)
    (.ite (.pure _) (.ite (.pure _) (.ite (.pure _) (.ite (.pure _) (keepsCounter_format _)))))))

theorem mount_blocksFree {p : Partition FlatDevice} {s : Fs} (h : mount p = some s) : s.blocksFree = -1 := by
  obtain ⟨⟨r, t⟩, hrun, rfl⟩ := Option.map_eq_some_iff.mp h
  have hkeeps : KeepsCounter (readSuperblock : Action FlatDevice ℤ) := by
    refine .bind ?_ fun _ => .bind (.modify fun _ => rfl) fun _ => .ite .hang (.pure _)
    intro s r t h
    rw [← (Prod.mk.inj (Option.some.inj h)).2]
  exact hkeeps _ _ _ hrun

end Starts

/-- A driver just constructed, or one that has counted nothing and has just formatted its partition. -/
inductive Started : Fs → Prop
  | mounted {p : Partition FlatDevice} {s : Fs} (h : mount p = some s) : Started s
  | made {block_size : ℕ} {s t : Fs} (hnone : s.blocksFree = -1) (h : make block_size s = some (true, t)) : Started t

structure CountExact (s : Fs) : Prop where
  known : CountKnown s
  answer : Geometry s → ∃ t, countFree s = some ((s.freeList.length : ℤ), t)

theorem countExact_iff {s : Fs} : CountExact s ↔ CountKnown s := by
  refine ⟨fun h => h.known, fun h => ⟨h, fun hg => ?_⟩⟩
  have hrun := run_countFree hg
  split_ifs at hrun with h0
  · rw [h.resolve_left (by omega)] at hrun
    exact ⟨_, hrun⟩
  · exact ⟨_, hrun⟩

theorem Started.exact {s : Fs} (h : Started s) : CountExact s := by
  rw [countExact_iff]
  cases h with
  | mounted h => exact .inl (mount_blocksFree h)
  | made hnone h => exact .inl ((keepsCounter_make _ _ _ _ h).trans hnone)

/-- Along every run from a driver just constructed or formatted, the counter is right throughout just
when no call is one of those that spoil it. -/
theorem count_exact_iff (s : Fs) (hs : Started s) (calls : List Call)
    (hl : Runs.Throughout Call.after Legal s calls) :
    Runs.Always Call.after CountExact s calls ↔
      Runs.Throughout Call.after (fun s c => c.Stops s ∨ ¬ c.Miscounts s) s calls := by
  refine Runs.always_iff hs.exact (fun t c ht hc => ?_) hl
  rw [countExact_iff] at ht ⊢
  exact call_known_iff ht hc

section Sample
open FatSample

def labelled : Fs := disk.poke 0 disk.superblock.encode

theorem labelled_frame : SameFrame disk labelled := SameFrame.poke _ _ _

theorem labelled_geometry : Geometry labelled := labelled_frame.geometry disk_geometry

theorem labelled_slice {q n : ℕ} (hq : 24 ≤ q) : slice labelled.data q n = slice disk.data q n :=
  slice_poke disk_geometry (Nat.zero_le _) (.inr hq)

theorem labelled_fat {b : ℕ} (hb : b < 12) : labelled.fat b = disk.fat b := by
  rw [labelled_geometry.fat_eq hb, disk_geometry.fat_eq hb]
  exact congrArg blockOfBytes (labelled_slice (show 24 ≤ 640 + 4 * b by omega))

theorem labelled_entry {k : ℕ} (hk : data.IsSlot k) : labelled.entry k = disk.entry k := by
  have hb := (slot_bound data_geometry hk).1
  have hlow : 640 ≤ (data.fatBlocks + 1) * data.bs := by decide
  rw [entry_eq, entry_eq, labelled_slice (by omega)]

theorem labelled_agree : picture.Agree labelled.image where
  epb := labelled_frame.epb.trans disk_agree.epb
  blockCount := labelled_frame.blockCount.trans disk_agree.blockCount
  fatBlocks := labelled_frame.fatBlocks.trans disk_agree.fatBlocks
  fat b hb := (labelled_fat hb).trans (disk_fat hb)
  entry k hk := (labelled_entry hk).trans (disk_entry hk)
  free k hk := by
    have he : labelled.image.entry k = picture.entry k := (labelled_entry hk).trans (disk_entry hk)
    obtain ⟨b, hb, hs⟩ := picture_start k
    rw [he, Image.free, Image.free, hs, image_fat, labelled_fat hb, disk_fat hb]

theorem labelled_wellFormed : WellFormed labelled where
  geometry := labelled_geometry
  image := labelled_agree.wellFormed picture_catalogue.wellFormed
  root h := absurd rfl h

theorem labelled_lookup_f : labelled.lookup pathF = .ok 6 := by
  have ha := picture_catalogue.wellFormed.avoidsCopies .root pathF_noDots.1 pathF_noDots.2
  rw [Driver.lookup, labelled_agree.rootSlot, labelled_agree.resolve picture_catalogue.wellFormed .root ha]
  decide

theorem labelled_started : Started labelled := by
  have hfits : SuperblockFits disk.superblock := ⟨by decide, by decide, by decide, by decide, by decide⟩
  have hpeek : ∀ w : Fs, w.partition = labelled.partition →
      w.peek 0 sizeofSuperblock = disk.superblock.encode := by
    intro w hw
    have hdata : w.data = labelled.data := by
      funext p
      simp only [Driver.data, hw]
    have haddr : w.partition.offset + 0 < 2 ^ 64 := by
      rw [hw]
      decide
    have hself := slice_patch_self disk.data 0 disk.superblock.encode
    rw [superblock_length] at hself
    rw [peek_eq_slice w 0 sizeofSuperblock haddr, hdata, labelled, poke_data _ _ _ (by decide)]
    exact hself
  have hread : ∀ w : Fs, w.partition = labelled.partition →
      readSuperblock w = some (0, { w with superblock := disk.superblock }) := by
    intro w hw
    simp only [readSuperblock, run_bind, run_partitionRead, Option.bind_some, run_modify, hpeek w hw,
      decode_superblock hfits, run_ite, ne_eq, not_true_eq_false, ite_false, run_pure, neg_zero]
  exact .mounted (congrArg (Option.map Prod.snd)
    (hread ⟨labelled.partition, ⟨0, 0, 0, 0, 0⟩, -1, .empty, 0⟩ rfl))

theorem labelled_unlink : Legal labelled (.unlink pathF) := by
  have hopens := opens_of_noDots labelled_wellFormed pathF_noDots fun e => e.isDirectory = false
  have hrun : (Call.unlink pathF).run labelled = _ := run_unlink labelled_wellFormed hopens
  refine ⟨labelled_wellFormed, .inr ⟨hopens, trivial⟩, ?_⟩
  rw [hrun]
  exact Option.some_ne_none _

/-- A driver that has counted nothing unlinks `/f`: its counter is 1 where four blocks are free. -/
theorem unlink_miscounts :
    Started labelled ∧ Legal labelled (.unlink pathF) ∧ ¬ CountExact ((Call.unlink pathF).after labelled) := by
  refine ⟨labelled_started, labelled_unlink, fun h => ?_⟩
  have hclean := Call.clean_of_noDots (c := .unlink pathF) labelled_wellFormed (by simpa [Call.paths] using pathF_noDots)
  have hstops := Call.not_stops labelled_geometry hclean
  have hknown := (call_known_iff labelled_started.exact.known labelled_unlink).mp h.known
  refine hknown.resolve_left hstops ⟨⟨6, labelled_lookup_f, ?_⟩, rfl⟩
  rw [labelled_entry ⟨by decide, by decide⟩, disk_entry_f]
  rfl

def countedDisk : Fs := { labelled with blocksFree := labelled.freeList.length }

theorem labelled_count : (Call.countFree).run labelled = some ((labelled.freeList.length : ℤ), countedDisk) := by
  have hrun := run_countFree labelled_geometry
  rw [if_neg (show ¬ 0 ≤ labelled.blocksFree by decide)] at hrun
  exact hrun

theorem countedDisk_wellFormed : WellFormed countedDisk := by
  obtain ⟨⟨h₁, h₂, h₃, h₄, h₅, h₆, h₇, h₈⟩, himage, hroot⟩ := labelled_wellFormed
  exact ⟨⟨h₁, h₂, h₃, h₄, h₅, h₆, h₇, h₈⟩, himage, hroot⟩

/-- A driver that counts its free blocks first unlinks `/f`: its counter is right all the way. -/
theorem count_exact_unlink : Runs.Always Call.after CountExact labelled [.countFree, .unlink pathF] := by
  have hafter : (Call.countFree).after labelled = countedDisk := after_eq labelled_count
  have hopens := opens_of_noDots countedDisk_wellFormed pathF_noDots fun e => e.isDirectory = false
  have hrun : (Call.unlink pathF).run countedDisk = _ := run_unlink countedDisk_wellFormed hopens
  have hcount : Legal labelled .countFree :=
    ⟨labelled_wellFormed, .inr ⟨trivial, trivial⟩, labelled_count ▸ Option.some_ne_none _⟩
  have hunlink : Legal countedDisk (.unlink pathF) :=
    ⟨countedDisk_wellFormed, .inr ⟨hopens, trivial⟩, hrun ▸ Option.some_ne_none _⟩
  have hlegal : Runs.Throughout Call.after Legal labelled [.countFree, .unlink pathF] :=
    Runs.throughout_cons.mpr ⟨hcount, Runs.throughout_cons.mpr ⟨hafter ▸ hunlink, Runs.throughout_nil⟩⟩
  refine (count_exact_iff labelled labelled_started _ hlegal).mpr
    (Runs.throughout_cons.mpr ⟨.inr id, Runs.throughout_cons.mpr ⟨.inr ?_, Runs.throughout_nil⟩⟩)
  rw [hafter]
  rintro ⟨-, hnone⟩
  have hcounted : 0 ≤ countedDisk.blocksFree := Int.natCast_nonneg _
  omega

end Sample

end Thorn.FatDriver

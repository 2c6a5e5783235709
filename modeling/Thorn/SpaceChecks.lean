import Thorn.NewFileBlocks
import Thorn.ResizeBlocks

set_option autoImplicit false

namespace Thorn.FatDriver
open ByteStore Paths FatTypes FatOperations FatImage LinkedChain

/-- The free blocks that a new file needs: its own, and one for a directory that has no slot left for it. -/
def Driver.needs (s : Fs) (p length : ℕ) : ℕ :=
  s.blocksFor length + if s.freedSlot p = none ∧ s.FullDir p then 1 else 0

/-- `newFile` answers `-ENOSPC` just when there are fewer free blocks than it needs. -/
def NewFileExact (s : Fs) (path : Str) (p length : ℕ) (type : FileType) (times : Option Times) : Prop :=
  ∃ r t, newFile path length type times false s = some (r, t) ∧
    (r.status = -ENOSPC ↔ s.freeList.length < s.needs p length)

/-- `resize` answers `-ENOSPC` just when there are fewer free blocks than the file lacks. -/
def ResizeExact (s : Fs) (k new_size : ℕ) : Prop :=
  ∃ r t, resize (s.entry k) (320 * k) new_size s = some (r, t) ∧
    (r.1 = -ENOSPC ↔ s.freeList.length < s.blocksFor new_size - (s.image.chain k).length)

section Space
variable {s : Fs} {p length : ℕ}

theorem Stands.status {newfile : DirEntry} {r : NewFileResult} {t : Fs} (h : Stands s p length newfile r t) :
    r.status = 0 := by
  cases h with
  | recycled => rfl
  | appended => rfl
  | expanded => rfl

theorem newFile_exact_iff (hw : WellFormed s) {path : Str}
    (hstay : s.image.StaysLive s.image.rootSlot (pathNames path).dropLast) (hl : s.lookupParent path = .ok p)
    (hd : (s.entry p).isDirectory) (hshort : (lastName path).length ≤ THORNFAT_PATH_MAX) (type : FileType)
    (times : Option Times) : NewFileExact s path p length type times ↔
      (s.freeList.length < s.asks p length ↔ s.freeList.length < s.needs p length) := by
  obtain ⟨r, t, hrun, hyes, hno⟩ := newFile_ends hw hstay hl hd hshort length type times
  have hstatus : r.status = -ENOSPC ↔ s.freeList.length < s.asks p length := by
    constructor
    · intro h
      by_contra hle
      rw [(hyes (not_lt.mp hle)).status] at h
      cases h
    · exact hno
  constructor
  · rintro ⟨r', t', hrun', hiff⟩
    rw [hrun] at hrun'
    cases hrun'
    exact hstatus.symm.trans hiff
  · exact fun h => ⟨r, t, hrun, hstatus.trans h⟩

theorem resize_exact_iff (hw : WellFormed s) {k : ℕ} (hk : s.image.Live k) (new_size : ℕ) :
    ResizeExact s k new_size ↔ ¬ ((s.image.chain k).length < s.blocksFor new_size ∧
      s.blocksFor new_size - (s.image.chain k).length ≤ s.freeList.length ∧
        s.freeList.length < s.blocksFor new_size - 1) := by
  have hone := (hw.image.owns k hk).length_pos
  have hr : s.image.Readable (s.entry k) := hw.image.readable hk
  have hrun :=
    run_resize_eq hw.geometry (fun f hf => (Nat.zero_le _).trans_lt (hw.free_data hf).1) hr (320 * k) new_size
  have hlarge : s.TooLarge (s.entry k) new_size ↔ (s.image.chain k).length < updiv new_size s.bs ∧
      (s.freeList.length = 0 ∨ s.freeList.length < updiv new_size s.bs - 1) := by
    have hroom : s.HasRoom new_size ↔
        ¬ (s.freeList.length = 0 ∨ s.freeList.length < updiv new_size s.bs - 1) := by
      rw [Driver.HasRoom, ne_eq, ← List.length_eq_zero_iff]
      omega
    rw [Driver.TooLarge, hroom, not_not]
    rfl
  have hne : (0 : ℤ) ≠ -ENOSPC := by decide
  have hiff : ResizeExact s k new_size ↔ (s.TooLarge (s.entry k) new_size ↔
      s.freeList.length < s.blocksFor new_size - (s.image.chain k).length) := by
    by_cases hbig : s.TooLarge (s.entry k) new_size
    · rw [if_pos hbig] at hrun
      refine ⟨?_, fun h => ⟨_, _, hrun, iff_of_true rfl (h.mp hbig)⟩⟩
      rintro ⟨r, t, hrun', hexact⟩
      rw [hrun] at hrun'
      cases hrun'
      exact iff_of_true hbig (hexact.mp rfl)
    · rw [if_neg hbig] at hrun
      refine ⟨?_, fun h => ⟨_, _, hrun, iff_of_false hne fun hfew => hbig (h.mpr hfew)⟩⟩
      rintro ⟨r, t, hrun', hexact⟩
      rw [hrun] at hrun'
      cases hrun'
      exact iff_of_false hbig fun hfew => absurd (hexact.mpr hfew) hne
  rw [hiff, hlarge, Driver.blocksFor]
  omega

end Space

/-- `-ENOSPC` is exact except where the number of free blocks lies between what is needed and what is asked for. -/
theorem enospc_exact_iff (s : Fs) (hw : WellFormed s) :
    (∀ (path : Str) (p length : ℕ) (type : FileType) (times : Option Times),
      s.image.StaysLive s.image.rootSlot (pathNames path).dropLast → s.lookupParent path = .ok p →
      (s.entry p).isDirectory → (lastName path).length ≤ THORNFAT_PATH_MAX →
      (NewFileExact s path p length type times ↔ ¬ (s.needs p length ≤ s.freeList.length ∧
        s.freeList.length < s.asks p length) ∧
        ¬ (s.asks p length ≤ s.freeList.length ∧ s.freeList.length < s.needs p length))) ∧
    ∀ k new_size : ℕ, s.image.Live k → (ResizeExact s k new_size ↔ ¬ ((s.image.chain k).length < s.blocksFor new_size ∧
      s.blocksFor new_size - (s.image.chain k).length ≤ s.freeList.length ∧
        s.freeList.length < s.blocksFor new_size - 1)) := by
  constructor
  · intro path p length type times hstay hl hd hshort
    rw [newFile_exact_iff hw hstay hl hd hshort]
    omega
  · exact fun k new_size hk => resize_exact_iff hw hk new_size

end Thorn.FatDriver

namespace Thorn.FatSample
open ByteStore Paths FatTypes FatDriver FatOperations FatImage

def pathDX : Str := [slash, 100, slash, 120]

theorem pathDX_noDots : NoDots pathDX := by
  unfold NoDots
  decide

theorem noDots_stays {path : Str} (hp : NoDots path) :
    disk.image.StaysLive disk.image.rootSlot (pathNames path).dropLast :=
  (stays_of_noDots disk_wellFormed hp).dropLast

theorem disk_live_entry {k : ℕ} (hk : k ∈ liveSlots) : disk.entry k = lookupEntry entries k :=
  disk_slot (picture_catalogue.wellFormed.live_data ((picture_catalogue.live_iff k).mpr hk))

theorem disk_reuses : disk.Reuses 4 := by
  have hw := picture_catalogue.wellFormed
  have hlive : picture.Live 4 := (picture_catalogue.live_iff 4).mpr (by decide)
  have hslots : (disk.image.slots 4).drop (disk.image.copies 4) = [6, 7, 14, 15] := by
    rw [disk_agree.slots hw hlive, disk_agree.copies]
    decide
  have hentry : disk.entry 15 = item [] .File 0 0 := (disk_slot ⟨by decide, by decide⟩).trans rfl
  have hfirst : disk.firstFree = (10 : ℕ) := firstFree_cons disk_geometry disk_freeList
  refine ⟨15, ?_, ?_, ?_⟩
  · rw [hslots]
    decide
  · rw [hentry, Driver.free]
    rfl
  · rw [hentry, hfirst]
    decide

/-- Two blocks are free: `newFile("/x")` of two blocks, and a third block for `/f`, are answered as they should be. -/
theorem disk_exact : NewFileExact disk pathX 4 1000 .File none ∧ ResizeExact disk 6 1900 := by
  have hbs : disk.bs = 640 := disk_frame.bs
  have hfree : disk.freeList.length = 2 := by rw [disk_freeList]; rfl
  have hblocks : disk.blocksFor 1000 = 2 ∧ disk.blocksFor 1900 = 3 := by
    rw [Driver.blocksFor, Driver.blocksFor, hbs]
    decide
  have hasks : disk.asks 4 1000 = 2 := by
    rw [Driver.asks, if_pos disk_reuses, hbs]
    decide
  have hneeds : disk.needs 4 1000 = 2 := by
    obtain ⟨k, hk, hkfree, -⟩ := disk_reuses
    rw [Driver.needs, hblocks.1, if_neg]
    rintro ⟨hnone, -⟩
    rw [freedSlot_live disk_wellFormed ((disk_live 4).mpr (by decide)), List.find?_eq_none] at hnone
    exact hnone k hk hkfree
  obtain ⟨hnew, hresize⟩ := enospc_exact_iff disk disk_wellFormed
  constructor
  · refine (hnew pathX 4 1000 .File none (noDots_stays pathX_noDots)
      ((disk_lookupParent pathX pathX_noDots).trans (by decide)) (by rw [disk_live_entry (by decide)]; decide)
      (by decide)).mpr ?_
    omega
  · refine (hresize 6 1900 ((disk_live 6).mpr (by decide))).mpr ?_
    rw [hblocks.2, disk_chain_f, hfree]
    decide

/-- Two blocks are free, `newFile("/d/x")` needs them for `/d` and for itself, and is refused. -/
theorem disk_refused :
    disk.freeList.length = 2 ∧ disk.needs 14 0 = 2 ∧ ¬ NewFileExact disk pathDX 14 0 .File none := by
  have hw := picture_catalogue.wellFormed
  have hlive : picture.Live 14 := (picture_catalogue.live_iff 14).mpr (by decide)
  have hfree : disk.freeList.length = 2 := by rw [disk_freeList]; rfl
  have hentry : disk.entry 14 = item nameD .Directory 8 640 := (disk_live_entry (by decide)).trans rfl
  have hslots : (disk.image.slots 14).drop (disk.image.copies 14) = [17] := by
    rw [disk_agree.slots hw hlive, disk_agree.copies]
    decide
  have hused : disk.free (disk.entry 17) = false := by
    rw [disk_live_entry (by decide), Driver.free, show (lookupEntry entries 17).start = (9 : ℕ) by decide,
      disk_fat (show 9 < 12 by omega)]
    decide
  have hfull : disk.FullDir 14 := by
    rw [Driver.FullDir, hentry]
    exact show 640 ∣ 640 from dvd_rfl
  have hfreed : disk.freedSlot 14 = none := by
    rw [freedSlot_live disk_wellFormed ((disk_live 14).mpr (by decide)), hslots, List.find?_eq_none]
    intro k hk
    obtain rfl := List.mem_singleton.mp hk
    rw [hused]
    decide
  have hreuses : ¬ disk.Reuses 14 := by
    rintro ⟨k, hk, hkf, -⟩
    rw [hslots] at hk
    obtain rfl := List.mem_singleton.mp hk
    rw [hused] at hkf
    cases hkf
  have hneeds : disk.needs 14 0 = 2 := by
    rw [Driver.needs, if_pos ⟨hfreed, hfull⟩, Driver.blocksFor, updiv_zero]
    rfl
  have hasks : disk.asks 14 0 = 3 := by
    rw [Driver.asks, if_neg hreuses, if_pos hfull, updiv_zero]
  refine ⟨hfree, hneeds, fun h => ?_⟩
  have hiff := (newFile_exact_iff disk_wellFormed (noDots_stays pathDX_noDots)
    ((disk_lookupParent pathDX pathDX_noDots).trans (by decide)) (by rw [hentry]; decide) (by decide) .File none).mp h
  rw [hfree, hneeds, hasks] at hiff
  omega

end Thorn.FatSample

import Thorn.ChainWalks
import Thorn.CallEnds

set_option autoImplicit false

namespace Thorn.FatDriver
open ByteStore Paths FatTypes FatOperations FatImage LinkedChain

section Storage
variable {σ : Type} [StorageDevice σ]

/-- A file whose first block is in use, or a directory of positive length. -/
def isLive (entry : DirEntry) : Action σ Bool :=
  if entry.isFile then do
    let free ← isFree entry
    pure (!free)
  else pure (entry.isDirectory && 0 < entry.len)

def anyLive : List DirEntry → Action σ Bool
  | [] => pure false
  | entry :: rest => do
    let live ← isLive entry
    if live ∧ entry.name.toStr ≠ dotDotName then pure true else anyLive rest

/-- The directory can be read and has no live entry but `..`; one of length 0 has no entries to read. -/
def ReadsEmpty (dir : DirEntry) (d : Driver σ) : Prop :=
  dir.len = 0 ∨ ∃ listing d₁ d₂, readDir dir d = some (listing, d₁) ∧ 0 ≤ listing.status ∧
    anyLive (listing.entries.map Prod.fst) d₁ = some (false, d₂)

structure FindsDirectory (path : Str) (d : Driver σ) (found : FindResult) (d₁ : Driver σ) : Prop where
  find : find path false d = some (found, d₁)
  status : 0 ≤ found.status
  directory : found.entry.isDirectory

/-- `rmdir` removes only what reads as empty; it refuses the rest without a write. -/
structure SparesFull (path : Str) (d : Driver σ) : Prop where
  removed : ∀ d', rmdir path d = some (0, d') → ∃ found d₁, FindsDirectory path d found d₁ ∧ ReadsEmpty found.entry d₁
  kept : ∀ found d₁, FindsDirectory path d found d₁ → ¬ ReadsEmpty found.entry d₁ →
    ∃ status d', rmdir path d = some (status, d') ∧ status < 0 ∧ d'.partition.writeRecords = d.partition.writeRecords

/-- The directory can be read and has a second entry; looking at its entries and reading it again writes nothing. -/
structure Noticed (dir : DirEntry) (d d₁ : Driver σ) : Prop where
  reads : ∃ listing d₂, readDir dir d₁ = some (listing, d₂) ∧ 0 ≤ listing.status ∧ 2 ≤ listing.entries.length ∧
    ∃ stuff d₃ again d₄, anyStuff (listing.entries.map Prod.fst) d₂ = some (stuff, d₃) ∧
      readDir dir d₃ = some (again, d₄) ∧ d₄.partition.writeRecords = d.partition.writeRecords

section Entries
variable {d : Driver σ}

theorem readFAT_returns (b : ℤ) (d : Driver σ) : ∃ v d', readFAT b d = some (v, d') := by
  unfold readFAT
  rw [run_bind, run_get, Option.bind_some, run_bind, partitionRead, Option.bind_some]
  dsimp only
  rw [run_ite]
  split_ifs
  · exact ⟨_, _, rfl⟩
  · exact ⟨_, _, rfl⟩

theorem isFree_returns (entry : DirEntry) (d : Driver σ) : ∃ free d', isFree entry d = some (free, d') := by
  unfold isFree
  rw [run_ite]
  by_cases h0 : entry.start = 0
  · rw [if_pos h0]
    exact ⟨_, _, rfl⟩
  · rw [if_neg h0, run_bind]
    obtain ⟨v, d', hread⟩ := readFAT_returns entry.start d
    rw [hread, Option.bind_some]
    exact ⟨_, _, rfl⟩

theorem hasStuff_isLive (entry : DirEntry) (d : Driver σ) : ∃ live d', isLive entry d = some (live, d') ∧
    hasStuff entry d = some (live && (entry.isFile || entry.name.toStr ≠ dotDotName), d') := by
  unfold isLive hasStuff
  rw [run_ite, run_ite]
  by_cases hf : entry.isFile
  · obtain ⟨free, d', hfree⟩ := isFree_returns entry d
    rw [if_pos hf, if_pos hf, run_bind, hfree, Option.bind_some, run_pure, hf]
    exact ⟨!free, d', rfl, by rw [Bool.true_or, Bool.and_true]⟩
  · have hf' : entry.isFile = false := by simpa using hf
    rw [if_neg hf, if_neg hf, run_ite, run_pure, hf', Bool.false_or]
    refine ⟨_, d, rfl, ?_⟩
    by_cases hd : entry.isDirectory
    · rw [if_pos hd, run_pure, hd, Bool.true_and, Bool.and_comm, Bool.decide_and]
    · rw [if_neg hd, run_pure]
      simp only [Bool.eq_false_iff.mpr hd, Bool.false_and]

theorem anyStuff_anyLive (l : List DirEntry) (d : Driver σ) :
    ∃ stuff live d₁ d₂, anyStuff l d = some (stuff, d₁) ∧
    anyLive l d = some (live, d₂) ∧ (live = true → stuff = true) := by
  induction l generalizing d with
  | nil => exact ⟨false, false, d, d, rfl, rfl, id⟩
  | cons entry l ih =>
    obtain ⟨live, d', hlive, hstuff⟩ := hasStuff_isLive entry d
    obtain ⟨stuff₁, live₁, d₁, d₂, hs, hl, himp⟩ := ih d'
    rw [anyStuff, anyLive, run_bind, run_bind, hlive, hstuff, Option.bind_some, Option.bind_some, run_ite,
      run_ite]
    by_cases hcount : live ∧ entry.name.toStr ≠ dotDotName
    · have hs' : (live && (entry.isFile || entry.name.toStr ≠ dotDotName)) = true := by
        simp only [hcount.1, hcount.2, ne_eq, not_false_eq_true, decide_true, Bool.or_true, Bool.and_true]
      rw [if_pos hcount, if_pos hs', run_pure]
      exact ⟨true, true, d', d', rfl, rfl, id⟩
    · rw [if_neg hcount, hl]
      by_cases hs' : (live && (entry.isFile || entry.name.toStr ≠ dotDotName)) = true
      · rw [if_pos hs', run_pure]
        exact ⟨true, live₁, d', d₂, rfl, rfl, fun _ => rfl⟩
      · rw [if_neg hs', hs]
        exact ⟨stuff₁, live₁, d₁, d₂, rfl, rfl, himp⟩

theorem anyLive_dotDot {entry : DirEntry} (h : entry.name.toStr = dotDotName) (d : Driver σ) :
    ∃ d', anyLive [entry] d = some (false, d') := by
  obtain ⟨live, d', hlive, -⟩ := hasStuff_isLive entry d
  refine ⟨d', ?_⟩
  rw [anyLive, run_bind, hlive, Option.bind_some, run_ite, if_neg fun hl => hl.2 h]
  rfl

end Entries

section Calls
variable {path : Str} {d d₁ : Driver σ} {found : FindResult}

theorem rmdir_root (h : path = [slash] ∨ path = []) : rmdir path d = some (-EINVAL, d) := by
  rw [rmdir, run_ite, if_pos h, run_pure]

theorem rmdir_directory (hroot : ¬ (path = [slash] ∨ path = [])) (h : FindsDirectory path d found d₁) :
    rmdir path d =
    (directoryEmpty found.entry d₁).bind fun p =>
      if p.1 = 0 then (readDir found.entry p.2).map fun q => (if q.1.status < 0 then q.1.status else -ENOTEMPTY, q.2)
      else (forget found.entry.start p.2).bind fun q =>
        (writeEntry ((found.entry.setStart 0).setLength 0) found.offset q.2).map fun r => (0, r.2) := by
  rw [rmdir, run_ite, if_neg hroot, run_bind, h.find, Option.bind_some, run_ite, if_neg (not_lt.mpr h.status),
    run_ite, if_neg (not_not.mpr h.directory), run_bind]
  congr 1
  funext p
  obtain ⟨empty, d₂⟩ := p
  dsimp only
  rw [run_ite]
  by_cases h0 : empty = 0
  · rw [if_pos h0, if_pos h0, run_bind]
    cases readDir found.entry d₂ with
    | none => rfl
    | some q =>
      rw [Option.bind_some, Option.map_some, run_ite]
      split_ifs
      · rfl
      · rfl
  · rw [if_neg h0, if_neg h0, run_bind]
    congr 1
    funext q
    rw [run_bind]
    cases writeEntry ((found.entry.setStart 0).setLength 0) found.offset q.2 with
    | none => rfl
    | some r => rfl

theorem rmdir_finds {d' : Driver σ} (h : rmdir path d = some (0, d')) :
    ∃ found d₁, FindsDirectory path d found d₁ := by
  by_cases hroot : path = [slash] ∨ path = []
  · rw [rmdir_root hroot] at h
    cases h
  rw [rmdir, run_ite, if_neg hroot, run_bind] at h
  cases hf : find path false d with
  | none =>
    rw [hf] at h
    cases h
  | some p =>
    obtain ⟨found, d₁⟩ := p
    rw [hf, Option.bind_some, run_ite] at h
    by_cases hs : found.status < 0
    · rw [if_pos hs, run_pure] at h
      exact absurd (congrArg Prod.fst (Option.some.inj h)) hs.ne
    · rw [if_neg hs, run_ite] at h
      by_cases hd : found.entry.isDirectory
      · exact ⟨found, d₁, hf, not_lt.mp hs, hd⟩
      · rw [if_pos hd, run_pure] at h
        cases h

theorem directoryEmpty_zero {dir : DirEntry} (d₃ : Driver σ) (hd : dir.isDirectory) :
    directoryEmpty dir d₁ = some (0, d₃) ↔ dir.len ≠ 0 ∧ ∃ listing d₂, readDir dir d₁ = some (listing, d₂) ∧
      0 ≤ listing.status ∧ 2 ≤ listing.entries.length ∧
      anyStuff (listing.entries.map Prod.fst) d₂ = some (true, d₃) := by
  rw [directoryEmpty, run_ite, if_neg (not_not.mpr hd), run_ite]
  by_cases h0 : dir.len = 0
  · rw [if_pos h0, run_pure]
    exact iff_of_false (by simp) fun h => h.1 h0
  rw [if_neg h0, run_bind]
  cases hr : readDir dir d₁ with
  | none => exact iff_of_false (by simp) (by simp)
  | some p =>
    obtain ⟨listing, d₂⟩ := p
    obtain ⟨stuff, live, d₄, d₅, hs, -, -⟩ := anyStuff_anyLive (listing.entries.map Prod.fst) d₂
    have hiff : (∃ listing' d₂', some (listing, d₂) = some (listing', d₂') ∧ 0 ≤ listing'.status ∧
        2 ≤ listing'.entries.length ∧ anyStuff (listing'.entries.map Prod.fst) d₂' = some (true, d₃)) ↔
        0 ≤ listing.status ∧ 2 ≤ listing.entries.length ∧ stuff = true ∧ d₄ = d₃ := by
      constructor
      · rintro ⟨listing', d₂', heq, hstatus, hlen, hstuff⟩
        cases heq
        rw [hs] at hstuff
        cases hstuff
        exact ⟨hstatus, hlen, rfl, rfl⟩
      · rintro ⟨hstatus, hlen, rfl, rfl⟩
        exact ⟨listing, d₂, rfl, hstatus, hlen, hs⟩
    rw [hiff, Option.bind_some, run_ite]
    by_cases hneg : listing.status < 0
    · rw [if_pos hneg, run_pure]
      exact iff_of_false (fun h => hneg.ne (congrArg Prod.fst (Option.some.inj h))) fun h => by omega
    rw [if_neg hneg, run_ite]
    by_cases hone : listing.entries.length ≤ 1
    · rw [if_pos hone, run_pure]
      exact iff_of_false (by simp) fun h => by omega
    rw [if_neg hone, run_bind, hs, Option.bind_some, run_ite]
    cases stuff with
    | true =>
      rw [if_pos rfl, run_pure]
      constructor
      · intro h
        cases h
        exact ⟨h0, by omega, by omega, rfl, rfl⟩
      · rintro ⟨-, -, -, -, rfl⟩
        rfl
    | false =>
      rw [if_neg Bool.false_ne_true, run_pure]
      exact iff_of_false (by simp) (by simp)

theorem noticed_kept (h : FindsDirectory path d found d₁) (hfull : ¬ ReadsEmpty found.entry d₁)
    (hn : Noticed found.entry d d₁) : ∃ status d', rmdir path d = some (status, d') ∧ status < 0 ∧
      d'.partition.writeRecords = d.partition.writeRecords := by
  by_cases hroot : path = [slash] ∨ path = []
  · exact ⟨-EINVAL, d, rmdir_root hroot, by decide, rfl⟩
  obtain ⟨listing, d₂, hread, hstatus, hlen, stuff, d₃, again, d₄, hstuff, hagain, hwrites⟩ := hn.reads
  have hlive : stuff = true := by
    obtain ⟨stuff', live, d₅, d₆, hs, hl, himp⟩ := anyStuff_anyLive (listing.entries.map Prod.fst) d₂
    rw [hs] at hstuff
    cases hstuff
    apply himp
    by_contra hno
    rw [Bool.eq_false_iff.mpr hno] at hl
    exact hfull (.inr ⟨listing, d₂, d₆, hread, hstatus, hl⟩)
  have hempty := (directoryEmpty_zero d₃ h.directory).mpr
    ⟨fun h0 => hfull (.inl h0), listing, d₂, hread, hstatus, hlen, hlive ▸ hstuff⟩
  rw [rmdir_directory hroot h, hempty, Option.bind_some, if_pos rfl, hagain, Option.map_some]
  refine ⟨_, d₄, rfl, ?_, hwrites⟩
  split_ifs with hneg
  · exact hneg
  · decide

theorem kept_noticed {status : ℤ} {d' : Driver σ} (hroot : ¬ (path = [slash] ∨ path = []))
    (h : FindsDirectory path d found d₁) (hrun : rmdir path d = some (status, d')) (hneg : status < 0)
    (hwrites : d'.partition.writeRecords = d.partition.writeRecords) : Noticed found.entry d d₁ := by
  rw [rmdir_directory hroot h] at hrun
  obtain ⟨p, hempty, hrun⟩ := Option.bind_eq_some_iff.mp hrun
  obtain ⟨empty, d₃⟩ := p
  dsimp only at hrun
  by_cases h0 : empty = 0
  · rw [if_pos h0] at hrun
    obtain ⟨q, hagain, heq⟩ := Option.map_eq_some_iff.mp hrun
    cases heq
    obtain ⟨-, listing, d₂, hread, hstatus, hlen, hstuff⟩ :=
      (directoryEmpty_zero _ h.directory).mp (h0 ▸ hempty)
    exact ⟨listing, d₂, hread, hstatus, hlen, true, d₃, q.1, q.2, hstuff, hagain, hwrites⟩
  · rw [if_neg h0] at hrun
    obtain ⟨q, -, hrun⟩ := Option.bind_eq_some_iff.mp hrun
    obtain ⟨r, -, heq⟩ := Option.map_eq_some_iff.mp hrun
    exact absurd (congrArg Prod.fst heq).symm hneg.ne

theorem noticed_spares (h : ∀ found d₁, FindsDirectory path d found d₁ → ReadsEmpty found.entry d₁ ∨
    Noticed found.entry d d₁) : SparesFull path d := by
  have hkept : ∀ found d₁, FindsDirectory path d found d₁ → ¬ ReadsEmpty found.entry d₁ →
      ∃ status d', rmdir path d = some (status, d') ∧ status < 0 ∧
        d'.partition.writeRecords = d.partition.writeRecords :=
    fun found d₁ hf hfull => noticed_kept hf hfull ((h found d₁ hf).resolve_left hfull)
  refine ⟨fun d' hrun => ?_, hkept⟩
  obtain ⟨found, d₁, hf⟩ := rmdir_finds hrun
  refine ⟨found, d₁, hf, ?_⟩
  by_contra hfull
  obtain ⟨status, d₂, hrun', hneg, -⟩ := hkept found d₁ hf hfull
  rw [hrun] at hrun'
  cases hrun'
  exact lt_irrefl _ hneg

/-- Directories are spared exactly when a directory that does not read as empty is noticed: it can be read,
has a second entry, and is not trimmed on the way. -/
theorem spares_full_iff (path : Str) (d : Driver σ) : SparesFull path d ↔ (path = [slash] ∨ path = []) ∨
    ∀ found d₁, FindsDirectory path d found d₁ → ReadsEmpty found.entry d₁ ∨ Noticed found.entry d d₁ := by
  constructor
  · intro h
    by_cases hroot : path = [slash] ∨ path = []
    · exact .inl hroot
    refine .inr fun found d₁ hf => ?_
    by_cases hempty : ReadsEmpty found.entry d₁
    · exact .inl hempty
    obtain ⟨status, d', hrun, hneg, hwrites⟩ := h.kept found d₁ hf hempty
    exact .inr (kept_noticed hroot hf hrun hneg hwrites)
  · rintro (hroot | h)
    · refine ⟨fun d' hrun => ?_, fun found d₁ _ _ => ⟨-EINVAL, d, rmdir_root hroot, by decide, rfl⟩⟩
      rw [rmdir_root hroot] at hrun
      cases hrun
    · exact noticed_spares h

end Calls

end Storage

section Flat
variable {s : Fs}

/-- On a well-formed file system the first entry of every directory but the root is `..`, so nothing is missed. -/
theorem clean_spares (hw : WellFormed s) {path : Str}
    (hstay : s.image.StaysLive s.image.rootSlot (pathNames path)) : SparesFull path s := by
  apply noticed_spares
  intro found d₁ hf
  have hfind := hf.find.symm.trans (run_find_clean hw (hstay.walkReadable hw.image .root))
  cases hl : s.lookup path with
  | error status =>
    rw [hl] at hfind
    cases hfind
    exact absurd hf.status (not_le.mpr (lookup_neg hl))
  | ok k =>
    rw [hl] at hfind
    cases hfind
    have hlive := hstay.resolve .root hl
    have hd : (s.entry k).isDirectory := hf.directory
    have h0 : (s.entry k).len ≠ 0 := (hw.image.directory k hlive hd).1.ne'
    have hr : s.load.image.Readable (s.entry k) := hw.image.readable hlive
    have hread := run_readDir hw.load.geometry (s.entry k) fun _ => hr
    rw [if_pos ⟨h0, hd⟩] at hread
    have hslots : (s.image.slots k).length = s.image.count k := by
      rw [Image.slots, Image.slotsIn, List.length_map, List.length_range]
    by_cases hone : s.image.count k ≤ 1
    · have hk : k ≠ s.image.rootSlot := by
        rintro rfl
        have h2 := Nat.div_le_div_right (c := sizeofDirEntry) hw.image.root_len
        rw [Nat.mul_div_cancel 2 (by decide)] at h2
        exact absurd (h2.trans hone) (by decide)
      have hcount : s.image.count k = 1 :=
        le_antisymm hone (Nat.div_pos (Nat.le_of_dvd (Nat.pos_of_ne_zero h0) (hw.image.directory k hlive hd).2)
          (by decide))
      have hentries : (s.load.listing (s.entry k)).map Prod.fst =
          [s.entry (s.image.slotAt (s.image.chain k) 0)] := by
        have h := listing_entries s k
        rw [Image.slots, Image.slotsIn, hcount] at h
        exact h
      obtain ⟨d₂, hany⟩ := anyLive_dotDot (hw.image.dotdot k hlive hk hd) s.load
      refine .inl (.inr ⟨_, s.load, d₂, hread, le_refl _, ?_⟩)
      dsimp only
      rw [hentries]
      exact hany
    · have hlen : (s.load.listing (s.entry k)).length = s.image.count k := by
        have h := congrArg List.length (listing_entries s k)
        rw [List.length_map, List.length_map, hslots] at h
        exact h
      refine .inr ⟨_, s.load, hread, le_refl _, ?_, _, s.load, _, s.load, run_anyStuff _ _, hread, rfl⟩
      dsimp only
      omega

end Flat

end Thorn.FatDriver

namespace Thorn.FatSample
open ByteStore Paths FatTypes FatDriver FatOperations FatImage LinkedChain

def pathD : Str := slash :: nameD

def longD : DirEntry := item nameD .Directory 8 1280

def shortD : Fs := disk.putEntry 14 longD

theorem shortD_frame : SameFrame disk shortD := SameFrame.poke _ _ _

theorem shortD_geometry : Geometry shortD := shortD_frame.geometry disk_geometry

theorem slot_disk {k : ℕ} (hk : data.IsSlot k) : disk.IsSlot k := disk_frame.isSlot.mpr hk

theorem shortD_fat {b : ℕ} (hb : b < 12) : shortD.image.fat b = picture.fat b := by
  rw [image_fat, shortD, putEntry_fat disk_geometry (slot_disk ⟨by decide, by decide⟩) longD hb]
  exact disk_fat hb

theorem shortD_entry {k : ℕ} (hk : data.IsSlot k) :
    shortD.entry k = if k = 14 then longD else lookupEntry entries k := by
  rw [shortD, putEntry_entry disk_geometry (slot_disk ⟨by decide, by decide⟩) longD k, disk_slot hk]

theorem shortD_rootSlot : shortD.image.rootSlot = 4 := by
  have h : shortD.image.rootSlot = disk.image.rootSlot := by
    rw [Image.rootSlot, Image.rootSlot, shortD_frame.epb]
    exact congrArg (fun n => (n + 1) * disk.image.epb) shortD_frame.fatBlocks
  exact h.trans disk_agree.rootSlot

theorem shortD_epb : shortD.image.epb = 2 := shortD_frame.epb.trans disk_agree.epb

theorem shortD_owns {e f : DirEntry} {l : List ℕ} (h : picture.Owns f l) (he : e.start = f.start) :
    shortD.image.Owns e l :=
  h.congr he (fun x hx => shortD_fat (h.data x hx).2) fun x hx => ⟨(h.data x hx).1, (h.data x hx).2⟩

theorem shortD_root : shortD.entry 4 = item dotName .Directory 2 1920 :=
  (shortD_entry ⟨by decide, by decide⟩).trans rfl

theorem shortD_owns_root : shortD.image.Owns (shortD.entry 4) [2, 3, 7] :=
  shortD_owns (picture_catalogue.owns 4 (by decide)) (congrArg DirEntry.start shortD_root)

theorem shortD_readable : shortD.image.Readable (shortD.entry 4) := by
  have hchain := shortD_owns_root.chainOf_eq
  refine ⟨hchain.symm ▸ shortD_owns_root, ?_⟩
  rw [hchain, shortD_root, Image.blocksFor, Image.bs, shortD_epb]
  decide

theorem shortD_slots : shortD.image.slots 4 = picture.slots 4 := by
  have hchain : shortD.image.chain 4 = picture.chain 4 := shortD_owns_root.chainOf_eq.trans (by decide)
  have hcount : shortD.image.count 4 = picture.count 4 := congrArg (fun e => e.len / sizeofDirEntry) shortD_root
  have hat : shortD.image.slotAt = picture.slotAt := by
    funext c i
    rw [Image.slotAt, Image.slotAt, shortD_epb]
    rfl
  rw [Image.slots, Image.slots, Image.slotsIn, Image.slotsIn, hchain, hcount, hat]

theorem shortD_find : shortD.image.findSlot 4 nameD = some 14 := by
  have hslots : picture.slots 4 = [4, 5, 6, 7, 14, 15] := by decide
  have hfind : picture.findSlot 4 nameD = some 14 := by decide
  rw [← hfind]
  apply Image.findSlot_congr shortD_slots
  intro k hk
  have hdata : data.IsSlot k := by
    rw [hslots] at hk
    simp only [List.mem_cons, List.not_mem_nil, or_false] at hk
    rcases hk with rfl | rfl | rfl | rfl | rfl | rfl <;> exact ⟨by decide, by decide⟩
  have hentry : (shortD.image.entry k).name = (picture.entry k).name ∧
      (shortD.image.entry k).start = (picture.entry k).start := by
    have he : shortD.image.entry k = if k = 14 then longD else lookupEntry entries k := shortD_entry hdata
    rw [he]
    by_cases h14 : k = 14
    · rw [if_pos h14, h14]
      exact ⟨rfl, by decide⟩
    · rw [if_neg h14]
      exact ⟨rfl, rfl⟩
  obtain ⟨b, hb, hs⟩ := picture_start k
  rw [hentry.1, Image.free, Image.free, hentry.2, hs, shortD_fat hb]

theorem shortD_lookup : shortD.lookup pathD = .ok 14 := by
  have hwalk : shortD.image.Walkable 4 = true := by
    rw [Image.walkable_iff]
    change (shortD.entry 4).len ≠ 0 ∧ (shortD.entry 4).isDirectory
    rw [shortD_root]
    decide
  have hnames : pathNames pathD = [nameD] := by decide
  rw [Driver.lookup, shortD_rootSlot, hnames, Image.resolve, if_pos hwalk, shortD_find]
  rfl

theorem shortD_finds : FindsDirectory pathD shortD ⟨0, longD, 4480, []⟩ shortD.load := by
  have hnames : pathNames pathD = [nameD] := by decide
  have hentry : shortD.entry 14 = longD := (shortD_entry ⟨by decide, by decide⟩).trans rfl
  have hfind := run_find_synced shortD_geometry (fun h => absurd rfl h) pathD (by
    rw [shortD_rootSlot, hnames]
    exact fun _ => ⟨shortD_readable, fun k _ => trivial⟩)
  rw [shortD_lookup, Driver.found, hentry] at hfind
  exact ⟨hfind, le_refl _, by decide⟩

theorem shortD_readDir : readDir longD shortD.load = some (⟨-EINVAL, [], none⟩, shortD.load) := by
  have hlen : longD.len = 1280 := by decide
  have hdir : longD.isDirectory = true := by decide
  have hstart : longD.start = 8 := by decide
  have hbs : shortD.load.bs = 640 := shortD_frame.bs.trans disk_frame.bs
  have hfat : shortD.load.fat 8 = FINAL := shortD_fat (show 8 < 12 by omega)
  unfold readDir readFile
  rw [run_bind, run_get, Option.bind_some, run_ite, if_neg (by rw [hlen, hdir]; decide), run_bind, run_bind,
    run_get, Option.bind_some, run_ite, if_neg (by rw [hlen]; decide), hlen, hstart]
  have hfuel : 1280 + walkFuel shortD.load.superblock = 1279 + walkFuel shortD.load.superblock + 1 := by omega
  change (readFileLoop longD shortD.load.bs _ 1280 8 [] shortD.load).bind _ = _
  rw [hbs, hfuel, run_readFileLoop_more (by decide), if_pos hfat, Option.bind_some]
  rfl

/-- The directory cannot be read, and it is removed. -/
theorem shortD_lost : (∃ t, rmdir pathD shortD = some (0, t)) ∧ ¬ SparesFull pathD shortD := by
  have hroot : ¬ (pathD = [slash] ∨ pathD = []) := by decide
  have hempty : directoryEmpty longD shortD.load = some (-EINVAL, shortD.load) := by
    rw [directoryEmpty, run_ite, if_neg (by decide), run_ite, if_neg (by decide), run_bind, shortD_readDir,
      Option.bind_some]
    rfl
  have howns : shortD.load.image.Owns longD [8] :=
    shortD_owns (picture_catalogue.owns 14 (by decide)) (by decide)
  constructor
  · rw [rmdir_directory hroot shortD_finds, hempty, Option.bind_some, if_neg (by decide),
      run_forget ((SameFrame.load shortD).geometry shortD_geometry) howns, Option.bind_some, run_writeEntry]
    exact ⟨_, rfl⟩
  · intro h
    have hfull : ¬ ReadsEmpty longD shortD.load := by
      rintro (h0 | ⟨listing, t, u, hread, hstatus, -⟩)
      · exact absurd h0 (by decide)
      · rw [shortD_readDir] at hread
        cases hread
        exact absurd hstatus (by decide)
    obtain ⟨status, t, hrun, hneg, hwrites⟩ := h.kept _ _ shortD_finds hfull
    obtain ⟨listing, u, hread, hstatus, -⟩ := (kept_noticed hroot shortD_finds hrun hneg hwrites).reads
    rw [shortD_readDir] at hread
    cases hread
    exact absurd hstatus (by decide)

end Thorn.FatSample

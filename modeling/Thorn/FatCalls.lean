import Thorn.FatCreate
import Thorn.PathNames

set_option autoImplicit false

namespace Thorn.FatDriver
open ByteStore Paths FatTypes FatOperations FatImage LinkedChain

inductive Call
  | create (path : Str) (modes : BitVec 32)
  | mkdir (path : Str)
  | write (path : Str) (buffer : List UInt8) (offset : ℤ)
  | truncate (path : Str) (size : ℤ)
  | unlink (path : Str)
  | rmdir (path : Str)
  | rename (srcpath destpath : Str)
  | utimens (path : Str) (time_now : BitVec 64)
  | read (path : Str) (size : ℕ) (offset : ℤ)
  | readdir (path : Str)
  | countFree

def Call.run {σ : Type} [StorageDevice σ] : Call → Action σ ℤ
  | create path modes => FatOperations.create path modes
  | mkdir path => FatOperations.mkdir path
  | write path buffer offset => FatOperations.write path buffer offset
  | truncate path size => FatOperations.truncate path size
  | unlink path => FatOperations.unlink path
  | rmdir path => FatOperations.rmdir path
  | rename srcpath destpath => FatOperations.rename srcpath destpath
  | utimens path time_now => FatOperations.utimens path time_now
  | read path size offset => do
    let r ← FatOperations.read path size offset
    pure r.1
  | readdir path => do
    let r ← FatOperations.readdir path
    pure r.1
  | countFree => FatDriver.countFree

/-- The paths that a call looks up as they are given. -/
def Call.paths : Call → List Str
  | create path _ | write path _ _ | truncate path _ | unlink path | rmdir path | utimens path _ | read path _ _
  | readdir path => [path]
  | rename srcpath destpath => [srcpath, destpath]
  | mkdir _ | countFree => []

/-- The path can be walked, and the chain of an entry of the kind that it leads to is the entry's own. -/
def Driver.Opens (s : Fs) (path : Str) (kind : DirEntry → Prop) : Prop :=
  s.Clean path ∧ ∀ k, s.lookup path = .ok k → kind (s.entry k) → s.image.Readable (s.entry k)

/-- A name can be given here: the file that has it can be removed, or there is a directory for it to go into. -/
def Driver.Receives (s : Fs) (path : Str) : Prop :=
  s.Opens path (fun e => e.isDirectory = false) ∧ (s.lookup path = .error (-ENOENT) → s.Houses path)

/-- What a call reads of the tree can be read as it stands: the directories its
paths lead through, and the chain it lists, sizes or frees. -/
def Call.Clean : Call → Fs → Prop
  | create path _, s => s.Clean path ∨ s.Stuck path
  | utimens path _, s | read path _ _, s => s.Clean path
  | write path _ _, s | truncate path _, s => s.Opens path fun _ => True
  | unlink path, s => s.Opens path fun e => e.isDirectory = false
  | rmdir path, s | readdir path, s => s.Opens path fun e => e.isDirectory
  | rename srcpath destpath, s => s.Clean srcpath ∧ ∀ k, s.lookup srcpath = .ok k → s.Receives destpath
  | mkdir _, _ | countFree, _ => True

/-- What a call looks up or lists cannot be read, for a chain that is too short, and it ends there. -/
def Call.Stops : Call → Fs → Prop
  | write path _ _, s | truncate path _, s | unlink path, s | rmdir path, s | utimens path _, s
  | read path _ _, s => s.Stuck path
  | readdir path, s => s.Stuck path ∨ s.Clean path ∧ ∃ k, s.lookup path = .ok k ∧ s.Cut k
  | rename srcpath destpath, s =>
    s.Stuck srcpath ∨ s.Clean srcpath ∧ (∃ k, s.lookup srcpath = .ok k) ∧ s.Stuck destpath
  | create _ _, _ | mkdir _, _ | countFree, _ => False

def writtenSize (e : DirEntry) (buffer : List UInt8) (offset : ℤ) : ℕ :=
  if e.len < toSize (offset + buffer.length) then toSize (offset + buffer.length) else e.len

/-- Bytes that are stored go to an offset that is not negative. -/
def Call.Forward : Call → Fs → Prop
  | .write path buffer offset, s => ∀ k, s.lookup path = .ok k →
      s.TooLarge (s.entry k) (writtenSize (s.entry k) buffer offset) ∨
        0 ≤ offset ∧ offset + buffer.length < 2 ^ 63
  | _, _ => True

section Ends
variable {s : Fs}

theorem writtenSize_natCast (e : DirEntry) {buffer : List UInt8} {offset : ℕ} (hn : offset + buffer.length < 2 ^ 63) :
    writtenSize e buffer offset = max e.len (offset + buffer.length) := by
  have hstop : toSize ((offset : ℤ) + buffer.length) = offset + buffer.length := by
    exact_mod_cast toSize_natCast (offset + buffer.length) (by omega)
  rw [writtenSize, hstop]
  split_ifs <;> omega

theorem opens_of_noDots (hw : WellFormed s) {path : Str} (hp : NoDots path) (kind : DirEntry → Prop) :
    s.Opens path kind :=
  ⟨clean_of_noDots hw hp, fun _ hk _ => hw.image.readable (lookup_live hw hp hk)⟩

theorem receives_of_noDots (hw : WellFormed s) {path : Str} (hp : NoDots path) : s.Receives path :=
  ⟨opens_of_noDots hw hp _, fun _ => houses_of_stays hw (stays_of_noDots hw hp).dropLast⟩

theorem Driver.Receives.load {path : Str} (h : s.Receives path) : s.load.Receives path :=
  ⟨h.1, fun hl => (h.2 hl).load⟩

theorem Call.clean_of_noDots (hw : WellFormed s) {c : Call} (hdots : ∀ path ∈ c.paths, NoDots path) : c.Clean s := by
  cases c with
  | create path => exact .inl (FatDriver.clean_of_noDots hw (hdots path (by simp [Call.paths])))
  | utimens path | read path => exact FatDriver.clean_of_noDots hw (hdots path (by simp [Call.paths]))
  | write path | truncate path | unlink path | rmdir path | readdir path =>
    unfold Call.Clean
    exact opens_of_noDots hw (hdots path (by simp [Call.paths])) _
  | rename srcpath destpath =>
    exact ⟨FatDriver.clean_of_noDots hw (hdots srcpath (by simp [Call.paths])),
      fun _ _ => receives_of_noDots hw (hdots destpath (by simp [Call.paths]))⟩
  | mkdir path => exact trivial
  | countFree => exact trivial

theorem load_load (s : Fs) : s.load.load = s.load := rfl

theorem clean_simplified (hw : WellFormed s) (path : Str) :
    s.image.StaysLive s.image.rootSlot (pathNames (simplifyPath path)).dropLast :=
  (stays_of_noDots hw (simplifyPath_noDots path)).dropLast

theorem run_find_clean (hw : WellFormed s) {path : Str} (hc : s.Clean path) :
    find path false s = some (s.found [] (s.lookup path), s.load) :=
  run_find hw path hc

theorem lookup_neg {path : Str} {status : ℤ} (h : s.lookup path = .error status) : status < 0 :=
  Image.resolve_error h

theorem run_create_missing (hw : WellFormed s) {path : Str} {status : ℤ} (hneg : status < 0)
    (hfind : find path false s = some (.fail status, s.load)) (modes : BitVec 32) :
    ∃ r t, Created s.load (simplifyPath path) 0 .File r t ∧
      create path modes s = some (if r.status < 0 then (r.status, t)
        else (0, t.storeEntry { r.entry with modes := modes } r.offset)) := by
  obtain ⟨r, t, hrun, hcreated⟩ := newFile_created hw.load (clean_simplified hw.load path) (Nat.zero_le _) .File
  refine ⟨r, t, hcreated, ?_⟩
  have hnot : ¬ 0 ≤ (FindResult.fail status).status := not_le.mpr hneg
  unfold create
  rw [run_bind, hfind, Option.bind_some, run_ite, if_neg hnot, run_bind, hrun, Option.bind_some, run_ite]
  split_ifs
  · rfl
  · rw [run_bind, run_writeEntry, Option.bind_some, run_pure]

theorem run_create (hw : WellFormed s) {path : Str} (hc : s.Clean path) (modes : BitVec 32) :
    (∃ k, s.lookup path = .ok k ∧ create path modes s = some (-EEXIST, s.load)) ∨
    ∃ status r t, s.lookup path = .error status ∧ Created s.load (simplifyPath path) 0 .File r t ∧
      create path modes s = some (if r.status < 0 then (r.status, t)
        else (0, t.storeEntry { r.entry with modes := modes } r.offset)) := by
  have hfind := run_find_clean hw hc
  cases hl : s.lookup path with
  | ok k =>
    refine .inl ⟨k, rfl, ?_⟩
    unfold create
    rw [run_bind, hfind, Option.bind_some, hl, run_ite,
      if_pos (show (0 : ℤ) ≤ (Driver.found s [] (.ok k)).status from le_rfl), run_pure]
  | error status =>
    rw [hl] at hfind
    obtain ⟨r, t, hcreated, hrun⟩ := run_create_missing hw (lookup_neg hl) hfind modes
    exact .inr ⟨status, r, t, rfl, hcreated, hrun⟩

theorem run_create_misses (hw : WellFormed s) {path : Str} (hc : s.Clean path ∨ s.Stuck path) (modes : BitVec 32) :
    ¬ s.Misses path ∧ create path modes s = some (-EEXIST, s.load) ∨
    ∃ r t, s.Misses path ∧ Created s.load (simplifyPath path) 0 .File r t ∧
      create path modes s = some (if r.status < 0 then (r.status, t)
        else (0, t.storeEntry { r.entry with modes := modes } r.offset)) := by
  rcases hc with hc | hstuck
  · rcases run_create hw hc modes with ⟨k, hk, hrun⟩ | ⟨status, r, t, hl, hcreated, hrun⟩
    · refine .inl ⟨?_, hrun⟩
      rw [hc.misses_iff hw.geometry]
      rintro ⟨status, he⟩
      cases hk.symm.trans he
    · exact .inr ⟨r, t, .inl ⟨status, hl⟩, hcreated, hrun⟩
  · obtain ⟨r, t, hcreated, hrun⟩ := run_create_missing hw (by decide) (run_find_stuck hw hstuck) modes
    exact .inr ⟨r, t, .inr hstuck, hcreated, hrun⟩

theorem run_mkdir (hw : WellFormed s) (path : Str) :
    ∃ r t, Created s.load (simplifyPath path) sizeofDirEntry .Directory r t ∧
      mkdir path s = some (if r.status < 0 then (r.status, t)
        else (0, t.storeEntry (r.parent.setName dotDotName) (mul32 r.entry.start t.bs))) := by
  obtain ⟨r, t, hrun, hcreated⟩ := newFile_created hw (clean_simplified hw path) le_rfl .Directory
  refine ⟨r, t, hcreated, ?_⟩
  unfold mkdir
  rw [run_bind, hrun, Option.bind_some, run_ite]
  split_ifs
  · rfl
  · simp only [run_bind, run_get, Option.bind_some, run_writeEntry, run_ite, lt_self_iff_false, ite_false,
      run_pure]

theorem run_truncate (hw : WellFormed s) {path : Str} (hc : s.Opens path fun _ => True) (size : ℤ) :
    truncate path size s = some (match s.lookup path with
      | .error status => (status, s.load)
      | .ok k => if s.TooLarge (s.entry k) (toSize size) then (-ENOSPC, s.load)
        else (0, s.load.resized (s.entry k) (320 * k) (toSize size))) := by
  have hfind := run_find_clean hw hc.1
  unfold truncate
  rw [run_bind, hfind, Option.bind_some]
  cases hl : s.lookup path with
  | error status =>
    have hneg := lookup_neg hl
    rw [run_ite, if_pos (show (Driver.found s [] (.error status)).status < 0 from hneg), run_pure]
    rfl
  | ok k =>
    have hr : s.load.image.Readable (s.entry k) := hc.2 k hl trivial
    have hfree : ∀ f ∈ s.load.freeList, 0 < f := fun f hf => by
      have := (hw.load.free_data hf).1
      omega
    have hres := run_resize_eq hw.load.geometry hfree hr (320 * k) (toSize size)
    rw [run_ite, if_neg (show ¬ (Driver.found s [] (.ok k)).status < 0 from lt_irrefl _), run_bind]
    change (resize (s.entry k) (320 * k) (toSize size) s.load).bind _ = _
    rw [hres, Option.bind_some]
    by_cases hroom : s.TooLarge (s.entry k) (toSize size)
    · have hroom' : s.load.TooLarge (s.entry k) (toSize size) := hroom
      simp only [hroom, hroom', ite_true, run_pure]
    · have hroom' : ¬ s.load.TooLarge (s.entry k) (toSize size) := hroom
      simp only [hroom, hroom', ite_false, run_pure]

/-- The state once the file in slot `k` is removed: its blocks given back, its
entry without a block. -/
def Driver.removed (s : Fs) (k : ℕ) : Fs :=
  ((s.clearCells (s.image.chain k)).addFree (s.image.chain k).length).storeEntry ((s.entry k).setStart 0) (320 * k)

theorem run_remove (hw : WellFormed s) {path : Str} (hc : s.Opens path fun e => e.isDirectory = false) :
    remove path s = some (match s.lookup path with
      | .error status => (status, s.load)
      | .ok k => if (s.entry k).isDirectory then (-EISDIR, s.load) else (0, s.load.removed k)) := by
  have hfind := run_find_clean hw hc.1
  unfold remove
  rw [run_bind, hfind, Option.bind_some]
  cases hl : s.lookup path with
  | error status =>
    have hneg := lookup_neg hl
    rw [run_ite, if_pos (show (Driver.found s [] (.error status)).status < 0 from hneg), run_pure]
    rfl
  | ok k =>
    rw [run_ite, if_neg (show ¬ (Driver.found s [] (.ok k)).status < 0 from lt_irrefl _), run_ite]
    by_cases hd : (s.entry k).isDirectory
    · have hd' : (Driver.found s [] (.ok k)).entry.isDirectory := hd
      simp only [hd, hd', ite_true, run_pure]
    · have hd' : ¬ (Driver.found s [] (.ok k)).entry.isDirectory := hd
      have howns : s.load.image.Owns (s.entry k) (s.image.chain k) := (hc.2 k hl (Bool.eq_false_iff.mpr hd)).owns
      have hforget := run_forget hw.load.geometry howns
      rw [if_neg hd', run_bind]
      change ((forget (s.entry k).start s.load).bind _) = _
      rw [hforget, Option.bind_some, run_bind, run_writeEntry, Option.bind_some, run_pure]
      simp only [hd]
      rfl

theorem run_unlink (hw : WellFormed s) {path : Str} (hc : s.Opens path fun e => e.isDirectory = false) :
    unlink path s = some (match s.lookup path with
      | .error status => (status, s.load)
      | .ok k => if (s.entry k).isDirectory then (-EISDIR, s.load) else (0, s.load.removed k)) := by
  have hremove := run_remove hw hc
  unfold unlink
  cases hl : s.lookup path with
  | error status =>
    rw [hl] at hremove
    rw [run_bind, hremove, Option.bind_some, run_ite, if_pos (lookup_neg hl), run_pure]
  | ok k =>
    rw [hl] at hremove
    dsimp only at hremove ⊢
    by_cases hd : (s.entry k).isDirectory
    · rw [if_pos hd] at hremove ⊢
      rw [run_bind, hremove, Option.bind_some, run_ite, if_pos (show (-EISDIR : ℤ) < 0 by decide), run_pure]
    · rw [if_neg hd] at hremove ⊢
      rw [run_bind, hremove, Option.bind_some, run_ite, if_neg (lt_irrefl _), run_pure]

/-- The state once an entry is written at `offset` and slot `k`, which it came from, is cleared. -/
def Driver.moved (s : Fs) (e : DirEntry) (offset k : ℕ) : Fs :=
  (s.poke offset e.encode).poke (320 * k) (List.replicate sizeofDirEntry 0)

def baseName (path : Str) : Str := ((pathLast path).getD []).take THORNFAT_PATH_MAX

/-- An entry may be renamed to the path: a file is there, or nothing is and there is a place for it. -/
def Driver.TakesName (s : Fs) (path : Str) : Prop :=
  (∃ d, s.lookup path = .ok d ∧ (s.entry d).isDirectory = false) ∨ s.lookup path = .error (-ENOENT) ∧ s.HasPlace path

/-- The ways `rename` ends: with nothing done, over a file that was removed, or
in a slot that `newFile` found. -/
inductive Renamed (s : Fs) (srcpath destpath : Str) : ℤ → Fs → Prop
  | failed {status : ℤ} (hneg : status < 0)
      (hno : (∃ status', s.lookup srcpath = .error status') ∨ ¬ s.TakesName destpath) :
      Renamed s srcpath destpath status s
  | replaced {k d : ℕ} (hk : s.lookup srcpath = .ok k) (hd : s.lookup destpath = .ok d)
      (hfile : (s.entry d).isDirectory = false) :
      Renamed s srcpath destpath 0 ((s.removed d).moved ((s.entry k).setName (baseName destpath)) (320 * d) k)
  | placed {k : ℕ} {type : FileType} {times : Option Times} {r : NewFileResult} {t : Fs} (hk : s.lookup srcpath = .ok k)
      (hd : s.lookup destpath = .error (-ENOENT)) (ht : Placed s destpath ((newEntry 0 type times).setStart 0) r t)
      (hr : 0 ≤ r.status) :
      Renamed s srcpath destpath 0 (t.moved ((s.entry k).setName (baseName destpath)) r.offset k)

theorem pathLast_some (path : Str) : ∃ base, pathLast path = some base := by
  unfold pathLast
  dsimp only
  split_ifs
  · exact ⟨_, rfl⟩
  · exact ⟨_, rfl⟩
  · split <;> exact ⟨_, rfl⟩
  · split <;> exact ⟨_, rfl⟩

theorem placed_fails {t : Fs} {path : Str} {e : DirEntry} {r : NewFileResult} (h : Placed s path e r t)
    (hneg : r.status < 0) : t = s := by
  cases h with
  | lost => rfl
  | recycled => exact absurd hneg (lt_irrefl _)
  | appended => exact absurd hneg (lt_irrefl _)
  | expanded => exact absurd hneg (lt_irrefl _)

theorem placed_no_place {t : Fs} {path : Str} {e : DirEntry} {r : NewFileResult} (h : Placed s path e r t)
    (hneg : r.status < 0) : ¬ s.HasPlace path := by
  cases h with
  | lost _ hno => exact hno
  | recycled => exact absurd hneg (lt_irrefl _)
  | appended => exact absurd hneg (lt_irrefl _)
  | expanded => exact absurd hneg (lt_irrefl _)

theorem Placed.hasPlace {t : Fs} {path : Str} {e : DirEntry} {r : NewFileResult} (h : Placed s path e r t)
    (hr : 0 ≤ r.status) : s.HasPlace path := by
  cases h with
  | lost hneg => exact absurd hr (not_le.mpr hneg)
  | @recycled p k ht hk => exact ⟨p, ht, .inl (by simp [hk])⟩
  | @appended p ht hk hroom => exact ⟨p, ht, .inr (.inl hroom)⟩
  | @expanded p f fs ht hk hfull hfree => exact ⟨p, ht, .inr (.inr (by simp [hfree]))⟩

theorem run_rename (hw : WellFormed s) {srcpath destpath : Str} (hs : s.Clean srcpath)
    (hd : ∀ k, s.lookup srcpath = .ok k → s.Receives destpath) :
    ∃ status t, rename srcpath destpath s = some (status, t) ∧ Renamed s.load srcpath destpath status t := by
  have hsrc := run_find_clean hw hs
  obtain ⟨base, hbase⟩ := pathLast_some destpath
  have hname : baseName destpath = base.take THORNFAT_PATH_MAX := by rw [baseName, hbase]; rfl
  unfold rename
  rw [run_bind, hsrc, Option.bind_some]
  cases hk : s.lookup srcpath with
  | error status =>
    have hneg := lookup_neg hk
    rw [run_ite, if_pos (show (Driver.found s [] (.error status)).status < 0 from hneg), run_pure]
    exact ⟨_, _, rfl, .failed hneg (.inl ⟨status, hk⟩)⟩
  | ok k =>
    obtain ⟨hopens, hhouses⟩ := (hd k hk).load
    have hdest := run_find_clean hw.load (s := s.load) hopens.1
    have hremove := run_remove hw.load (s := s.load) hopens
    rw [run_ite, if_neg (show ¬ (Driver.found s [] (.ok k)).status < 0 from lt_irrefl _), run_bind, hdest,
      Option.bind_some, load_load]
    cases hd' : s.load.lookup destpath with
    | error status =>
      have hneg : status < 0 := lookup_neg hd'
      by_cases hst : status = -ENOENT
      · obtain ⟨r, t, hrun, hplaced⟩ := newFile_placed hw.load (hhouses (hst ▸ hd'))
          (if (s.entry k).isDirectory then FileType.Directory else FileType.File) (some (s.entry k).times)
        change newFile destpath 0 (if (Driver.found s [] (.ok k)).entry.isDirectory then FileType.Directory
          else FileType.File) (some (Driver.found s [] (.ok k)).entry.times) true s.load = _ at hrun
        have hgo : ¬ ((Driver.found s.load [] (.error status)).status < 0 ∧
            (Driver.found s.load [] (.error status)).status ≠ -ENOENT) := fun h => h.2 hst
        have hnew : ¬ 0 ≤ (Driver.found s.load [] (.error status)).status := not_le.mpr hneg
        rw [run_ite, if_neg hgo, run_ite, if_neg hnew]
        simp only [run_bind, hrun, Option.bind_some, run_pure, run_ite]
        by_cases hr : r.status < 0
        · obtain rfl := placed_fails hplaced hr
          simp only [hr, ite_true]
          refine ⟨_, _, rfl, .failed hr (.inr ?_)⟩
          rintro (⟨d, hd'', -⟩ | ⟨-, hplace⟩)
          · exact absurd (hd'.symm.trans hd'') (by simp)
          · exact placed_no_place hplaced hr hplace
        · simp only [hr, ite_false, hbase, run_bind, run_partitionWrite, Option.bind_some, run_ite,
            lt_self_iff_false, run_pure]
          refine ⟨_, _, rfl, ?_⟩
          have h := Renamed.placed (s := s.load) hk (hst ▸ hd') hplaced (not_lt.mp hr)
          rwa [hname] at h
      · have hgo : (Driver.found s.load [] (.error status)).status < 0 ∧
            (Driver.found s.load [] (.error status)).status ≠ -ENOENT := ⟨hneg, hst⟩
        rw [run_ite, if_pos hgo, run_pure]
        refine ⟨_, _, rfl, .failed hneg (.inr ?_)⟩
        rintro (⟨d, hd'', -⟩ | ⟨hd'', -⟩)
        · exact absurd (hd'.symm.trans hd'') (by simp)
        · exact hst (Except.error.inj (hd'.symm.trans hd''))
    | ok d =>
      have hgo : ¬ ((Driver.found s.load [] (.ok d)).status < 0 ∧
          (Driver.found s.load [] (.ok d)).status ≠ -ENOENT) := fun h => absurd h.1 (lt_irrefl 0)
      have hthere : 0 ≤ (Driver.found s.load [] (.ok d)).status := le_rfl
      rw [hd', load_load] at hremove
      rw [run_ite, if_neg hgo, run_ite, if_pos hthere, run_bind, hremove, Option.bind_some]
      dsimp only
      by_cases hdir : (s.entry d).isDirectory
      · have hdir' : (s.load.entry d).isDirectory := hdir
        have hneg : (-EISDIR : ℤ) < 0 := by decide
        simp only [hdir', ite_true]
        refine ⟨_, _, rfl, .failed hneg (.inr ?_)⟩
        rintro (⟨d', hd'', hfile⟩ | ⟨hd'', -⟩)
        · obtain rfl : d = d' := Except.ok.inj (hd'.symm.trans hd'')
          exact absurd (hdir'.symm.trans hfile) (by simp)
        · exact absurd (hd'.symm.trans hd'') (by simp)
      · have hdir' : ¬ (s.load.entry d).isDirectory := hdir
        simp only [hdir', ite_false, run_pure, Option.bind_some, run_ite, lt_self_iff_false, hbase, run_bind,
          run_partitionWrite]
        refine ⟨_, _, rfl, ?_⟩
        have h := Renamed.replaced (s := s.load) hk hd' (Bool.eq_false_iff.mpr hdir)
        rwa [hname] at h

theorem Driver.Stuck.not_root {path : Str} (h : s.Stuck path) : ¬ (path = [slash] ∨ path = []) := by
  obtain ⟨pre, name, rest, p, hnames, -⟩ := h
  intro hroot
  rw [pathNames, if_pos hroot] at hnames
  exact absurd hnames.symm (by simp)

theorem Driver.Stuck.load {path : Str} (h : s.Stuck path) : s.load.Stuck path := by
  obtain ⟨pre, name, rest, p, hnames, hwalk, hp, hcut⟩ := h
  exact ⟨pre, name, rest, p, hnames, hwalk, hp, hcut.directory, hcut.owns, hcut.short⟩

theorem Call.not_stops (hg : Geometry s) {c : Call} (h : c.Clean s) : ¬ c.Stops s := by
  cases c with
  | create | mkdir | countFree => exact id
  | utimens | read => exact Driver.Clean.not_stuck hg h
  | write | truncate | unlink | rmdir => exact Driver.Clean.not_stuck hg h.1
  | readdir path =>
    rintro (hstuck | ⟨-, k, hk, hcut⟩)
    · exact Driver.Clean.not_stuck hg h.1 hstuck
    · exact hcut.not_readable hg (h.2 k hk hcut.directory)
  | rename srcpath destpath =>
    rintro (hstuck | ⟨-, ⟨k, hk⟩, hstuck⟩)
    · exact Driver.Clean.not_stuck hg h.1 hstuck
    · exact Driver.Clean.not_stuck hg (h.2 k hk).1.1 hstuck

theorem run_stuck (hw : WellFormed s) {path : Str} (h : s.Stuck path) {α : Type} (g : ℤ → α)
    (rest : FindResult → Action FlatDevice α) :
    (find path false >>= fun found => if found.status < 0 then pure (g found.status) else rest found) s =
      some (g (-EINVAL), s.load) := by
  rw [run_bind, run_find_stuck hw h, Option.bind_some, run_ite,
    if_pos (show (FindResult.fail (-EINVAL)).status < 0 by decide), run_pure]
  rfl

theorem run_readdir_cut (hw : WellFormed s) {path : Str} (hc : s.Clean path) {k : ℕ} (hk : s.lookup path = .ok k)
    (hcut : s.Cut k) : (Call.readdir path).run s = some (-EINVAL, s.load) := by
  have hlist := run_readDir_short (s := s.load) hw.load.geometry hcut.owns hcut.directory hcut.short
  change (FatOperations.readdir path >>= fun r => pure r.1) s = _
  unfold FatOperations.readdir
  rw [run_bind, run_bind, run_find_clean hw hc, hk, Option.bind_some, run_ite,
    if_neg (show ¬ (Driver.found s [] (.ok k)).status < 0 from lt_irrefl _), run_ite,
    if_neg (not_not.mpr (show (Driver.found s [] (.ok k)).entry.isDirectory from hcut.directory)), run_bind,
    run_get, Option.bind_some, run_bind]
  change (((readDir (s.entry k) s.load).bind _).bind _) = _
  rw [hlist, Option.bind_some, run_ite, if_pos (show (-EINVAL : ℤ) < 0 by decide), run_pure]
  rfl

theorem run_rename_stuck (hw : WellFormed s) {srcpath destpath : Str} (hc : s.Clean srcpath) {k : ℕ}
    (hk : s.lookup srcpath = .ok k) (h : s.Stuck destpath) :
    rename srcpath destpath s = some (-EINVAL, s.load) := by
  have hgo : (FindResult.fail (-EINVAL)).status < 0 ∧ (FindResult.fail (-EINVAL)).status ≠ -ENOENT := by decide
  unfold rename
  rw [run_bind, run_find_clean hw hc, hk, Option.bind_some, run_ite,
    if_neg (show ¬ (Driver.found s [] (.ok k)).status < 0 from lt_irrefl _), run_bind,
    run_find_stuck hw.load h.load, Option.bind_some, run_ite, if_pos hgo, run_pure]
  rfl

/-- A call that stops has failed, and has loaded the root at most. -/
theorem run_stops (hw : WellFormed s) {c : Call} (h : c.Stops s) : c.run s = some (-EINVAL, s.load) := by
  cases c with
  | create | mkdir | countFree => exact h.elim
  | write path buffer offset =>
    change write path buffer offset s = _
    unfold write
    rw [run_bind, run_get, Option.bind_some]
    exact run_stuck hw h id _
  | truncate path size => exact run_stuck hw h id _
  | utimens path time_now => exact run_stuck hw h id _
  | unlink path =>
    have hremove : remove path s = some (-EINVAL, s.load) := run_stuck hw h id _
    change unlink path s = _
    unfold unlink
    rw [run_bind, hremove, Option.bind_some, run_ite, if_pos (show (-EINVAL : ℤ) < 0 by decide), run_pure]
  | rmdir path =>
    change rmdir path s = _
    unfold rmdir
    rw [run_ite, if_neg h.not_root]
    exact run_stuck hw h id _
  | read path size offset =>
    have hread : FatOperations.read path size offset s = some ((-EINVAL, []), s.load) := by
      unfold FatOperations.read
      rw [run_bind, run_get, Option.bind_some]
      exact run_stuck hw h (fun status => (status, [])) _
    change (FatOperations.read path size offset >>= fun r => pure r.1) s = _
    rw [run_bind, hread, Option.bind_some, run_pure]
  | readdir path =>
    rcases h with h | ⟨hc, k, hk, hcut⟩
    · have hread : readdir path s = some ((-EINVAL, []), s.load) := run_stuck hw h (fun status => (status, [])) _
      change (FatOperations.readdir path >>= fun r => pure r.1) s = _
      rw [run_bind, hread, Option.bind_some, run_pure]
    · exact run_readdir_cut hw hc hk hcut
  | rename srcpath destpath =>
    rcases h with h | ⟨hc, ⟨k, hk⟩, h⟩
    · exact run_stuck hw h id _
    · exact run_rename_stuck hw hc hk h

end Ends

end Thorn.FatDriver

import Thorn.FileViews

set_option autoImplicit false

namespace Thorn.FatDriver
open ByteStore Paths FatTypes FatOperations FatImage LinkedChain NamedStore

structure Driver.FileAt (s : Fs) (path : Str) : Prop where
  dots : NoDots path
  file : ∀ k, s.lookup path = .ok k → (s.entry k).isDirectory = false

/-- The calls that the driver carries out as it should: what is made finds a slot without a further block, and files
keep their runs of zeros to themselves. -/
def Call.Tame (s : Fs) : Call → Prop
  | .mkdir path => (TreeCall.mkdir path).Succeeds s ∧ s.HasSlot path
  | .create path modes => NoDots path ∧ (∃ k, s.lookup path = .ok k) ∨
      (TreeCall.create path modes).Succeeds s ∧ s.HasSlot path
  | .write path buffer offset => s.FileAt path ∧ ∀ k, s.lookup path = .ok k →
      s.SizesRight k (max (s.entry k).len (offset.toNat + buffer.length))
  | .truncate path size => s.FileAt path ∧ ∀ k, s.lookup path = .ok k →
      s.SizesRight k (toSize size) ∧ s.CutsOwn k (toSize size)
  | .unlink path | .readdir path => NoDots path
  | .utimens path _ | .read path _ _ => s.FileAt path
  | .countFree => True
  | .rmdir _ | .rename _ _ => False

/-- What a call means to the store behind the names. -/
def Call.change (s : Fs) : Call → Change (List Str)
  | .mkdir path => .make (pathNames path) .directory
  | .create path _ => match s.lookup path with
    | .ok _ => .look
    | .error _ => .make (pathNames path) (.file [])
  | .write path buffer offset => match s.lookup path with
    | .ok k => if s.TooLarge (s.entry k) (writtenSize (s.entry k) buffer offset) then .look
        else .store (pathNames path) buffer offset.toNat
    | .error _ => .look
  | .truncate path size => match s.lookup path with
    | .ok k => if s.TooLarge (s.entry k) (toSize size) then .look else .size (pathNames path) (toSize size)
    | .error _ => .look
  | .unlink path => match s.lookup path with
    | .ok k => if (s.entry k).isDirectory then .look else .remove (pathNames path)
    | .error _ => .look
  | _ => .look

/-- A call leaves a tree as it should be, with what it means done to the store. -/
structure Carried (s : Fs) (change : Change (List Str)) (t : Fs) : Prop where
  tree : Treelike t
  change : Changes s.view change t.view

section Steps
variable {s t : Fs} {path name : Str} {dir : List Str} {k : ℕ}

theorem Treelike.looked (h : Treelike s) : Carried s .look s.load := ⟨h.load, .look⟩

theorem Treelike.found (h : Treelike s) (hdots : NoDots path) (hk : s.lookup path = .ok k) :
    s.load.image.Named (pathNames path) k := (lookup_named h.wf h.unique hdots).mp hk

theorem Treelike.touched (h : Treelike s) (hk : s.image.Named (pathNames path) k) {c : List ℕ}
    (hfile : (s.entry k).isDirectory = false) (hw : Reworked s.load t k c)
    (hsame : t.content (t.entry k) = s.content (s.entry k)) : Carried s .look t := by
  refine ⟨hw.treelike h hk.live hfile, ?_⟩
  have hview := hw.view h.orderly hk hfile
  have hold : s.view (pathNames path) = some (.file (s.content (s.entry k))) := by
    rw [view_some h.unique hk, node_file hfile]
  rw [hsame, view_load, ← hold, Function.update_eq_self] at hview
  rw [hview]
  exact .look

theorem Treelike.restored (h : Treelike s) (hk : s.image.Named (pathNames path) k)
    (hfile : (s.entry k).isDirectory = false) {e : DirEntry} (hlen : e.len = (s.entry k).len)
    (hstart : e.start = (s.entry k).start) (hname : e.name = (s.entry k).name) (hdir : e.isDirectory = false) :
    Carried s .look (s.load.storeEntry e (320 * k)) := by
  have hw := h.orderly.wf
  have hlive : s.load.image.Live k := hk.live
  have hold : (s.load.entry k).isDirectory = false := hfile
  have hroot := file_start hw hlive hold
  have hother : e.start ≠ s.load.superblock.startBlock := by
    rw [hstart]
    exact hroot
  have hre := (Reworked.refl hw hlive hold).stored hw hlive hold hlen hstart hname hdir hother
  have hentry : (s.load.storeEntry e (320 * k)).entry k = e :=
    (stored_entry hw.geometry (file_takes hw hlive hold) k).trans (if_pos rfl)
  refine h.touched hk hfile hre ?_
  have howns := hre.owns
  rw [hentry] at howns ⊢
  refine content_same hre.frame.bs (hw.image.owns k hlive) howns hlen fun b hb => ?_
  apply storeEntry_block hw.geometry (hw.image.live_data hlive)
  rintro rfl
  exact hw.image.live_apart hlive hlive hold hb

theorem hasSlot_parent (hpath : Spells path (dir ++ [name])) (hslot : s.HasSlot path) {p : ℕ}
    (hp : s.lookupParent (simplifyPath path) = .ok p) : s.freedSlot p ≠ none ∨ ¬ s.FullDir p := by
  obtain ⟨p', hp', hplace⟩ := hslot
  rw [Driver.lookupParent, hpath.pathNames_simplify, ← hpath.pathNames] at hp
  obtain rfl := Except.ok.inj (hp.symm.trans hp')
  exact hplace

theorem Spared.stored_kept {u : Fs} {q i : ℕ} (hw : WellFormed s) (hq : s.image.Live q)
    (hu : Spared s u q (s.image.chain q))
    (hi : s.Apart q (s.image.chain q) i) (e : DirEntry) : FileKept s (u.storeEntry e (320 * i)) q :=
  Spared.kept hw hq (hu.trans (.storeEntry ((hw.resides hq).of hu.frame) (hu.frame.apart hi) e))

theorem Treelike.creates (h : Treelike s) (hpath : Spells path (dir ++ [name])) (hnul : (0 : UInt8) ∉ name)
    (hfresh : ∀ k, ¬ s.image.Named (dir ++ [name]) k) (hslot : s.HasSlot path) {modes : BitVec 32}
    (hrun : create path modes s = some (0, t)) : Carried s (.make (dir ++ [name]) (.file [])) t := by
  have htree := h.created hpath hnul hfresh hslot hrun
  have hw := h.orderly.wf
  rcases run_create h.wf (clean_of_noDots h.wf hpath.noDots) modes with ⟨k, -, hr⟩ | ⟨status, r, u, hl, hc, hr⟩
  · rw [hrun, Option.some.injEq, Prod.mk.injEq] at hr
    exact absurd hr.1 (by decide)
  · rw [hrun, Option.some.injEq] at hr
    split_ifs at hr with hneg
    · have hzero : 0 = r.status := congrArg Prod.fst hr
      omega
    · obtain rfl : t = u.storeEntry { r.entry with modes := modes } r.offset := congrArg Prod.snd hr
      obtain ⟨hlast, p, v, k, f, fs, hp, hh⟩ := newFile_housed h.orderly.toSound hpath hslot hc hneg
      have hname :
          ({ ownEntry (simplifyPath path) 0 .File f with modes := modes } : DirEntry).name.toStr = name :=
        (hh.name (by rw [hlast]; exact hnul)).trans hlast
      have hfile := fileEntry_file (simplifyPath path) f modes
      have hstored := hh.stored hw modes
      have hview := hh.view h.orderly hp hstored (Nat.zero_le _)
        (fun hd => absurd (hfile.symm.trans hd) (by decide)) (by rw [hname]; exact hfresh)
        (fun q => created_kinds h.orderly.toSound hh.target.parent hp.live
          (hasSlot_parent hpath hslot hh.target.parent) hc hneg)
        fun q hq hqf => by
          obtain ⟨⟨i, hi, htouch⟩, -⟩ := hc.reports hw (clean_simplified hw path) (not_lt.mp hneg)
          have hu := Spared.created hw hq hqf (clean_simplified hw path) hc
          rw [hi]
          exact hu.stored_kept hw hq (htouch.apart_of_stays hw hq hqf (clean_simplified hw path)) _
      have hnode : (u.storeEntry { r.entry with modes := modes } r.offset).node k = .file [] := by
        rw [node_file (by rw [hstored.new, hfile]), hstored.new, Driver.content]
        exact congrArg NamedStore.Node.file List.take_zero
      rw [hname, hnode] at hview
      refine ⟨htree, ?_⟩
      rw [hview, view_load]
      exact .make (view_none hfresh)

theorem Treelike.makes (h : Treelike s) (hpath : Spells path (dir ++ [name])) (hnul : (0 : UInt8) ∉ name)
    (hfresh : ∀ k, ¬ s.image.Named (dir ++ [name]) k) (hslot : s.HasSlot path)
    (hrun : mkdir path s = some (0, t)) : Carried s (.make (dir ++ [name]) .directory) t := by
  have htree := h.made hpath hnul hfresh hslot hrun
  have hw := h.orderly.wf
  obtain ⟨r, u, hc, hr⟩ := run_mkdir h.wf path
  rw [hrun, Option.some.injEq] at hr
  split_ifs at hr with hneg
  · have hzero : 0 = r.status := congrArg Prod.fst hr
    omega
  · obtain rfl : t = u.storeEntry (r.parent.setName dotDotName) (mul32 r.entry.start u.bs) :=
      congrArg Prod.snd hr
    obtain ⟨hlast, p, v, k, f, fs, hp, hh⟩ := newFile_housed h.orderly.toSound hpath hslot hc hneg
    have hname := (hh.name (by rw [hlast]; exact hnul)).trans hlast
    obtain ⟨hfilled, hcopy⟩ := hh.opened hw
    have hview := hh.view h.orderly hp hfilled le_rfl
      (fun _ => ⟨rfl, by rw [hcopy]; exact Filename.ofBytes_toStr dotDotName (by decide) (by decide)⟩)
      (by rw [hname]; exact hfresh)
      (fun q => created_kinds h.orderly.toSound hh.target.parent hp.live
        (hasSlot_parent hpath hslot hh.target.parent) hc hneg)
      fun q hq hqf => by
        obtain ⟨b, hb, hposition⟩ := hc.first_slot hw (clean_simplified hw path) (not_lt.mp hneg)
        have hu := Spared.created hw hq hqf (clean_simplified hw path) hc
        rw [hposition]
        exact hu.stored_kept hw hq (apart_block hw hq hb) _
    have hnode : (u.storeEntry (r.parent.setName dotDotName) (mul32 r.entry.start u.bs)).node k = .directory :=
      node_directory (by rw [hfilled.new]; rfl)
    rw [hname, hnode] at hview
    refine ⟨htree, ?_⟩
    rw [hview, view_load]
    exact .make (view_none hfresh)

theorem Treelike.sizes {names : List Str} {size : ℕ} (h : Treelike s) (hk : s.image.Named names k)
    (hfile : (s.entry k).isDirectory = false) (hsize : size < 2 ^ 64) (hroom : ¬ s.TooLarge (s.entry k) size)
    (hright : s.SizesRight k size) (hcuts : s.CutsOwn k size) :
    Carried s (.size names size) (s.load.resized (s.entry k) (320 * k) size) := by
  have hs := h.orderly
  have hre := resized_reworked hs.wf hk.live hfile hsize hroom hright hcuts
  obtain ⟨fill, hfill, hcontent⟩ :=
    resized_fills hs.toSound hk.live hfile hsize hroom hright hcuts rfl
  have hview := hre.view hs hk hfile
  rw [hcontent, view_load] at hview
  refine ⟨hre.treelike h hk.live hfile, ?_⟩
  change Changes _ _ (s.load.resized (s.load.entry k) (320 * k) size).view
  rw [hview]
  exact .size ((view_some h.unique hk).trans (congrArg some (node_file hfile))) hfill

theorem Treelike.writes {names : List Str} {buffer : List UInt8} {offset : ℕ} (h : Treelike s)
    (hk : s.image.Named names k) (hfile : (s.entry k).isDirectory = false)
    (hsize : max (s.entry k).len (offset + buffer.length) < 2 ^ 64)
    (hroom : ¬ s.TooLarge (s.entry k) (max (s.entry k).len (offset + buffer.length)))
    (hright : s.SizesRight k (max (s.entry k).len (offset + buffer.length)))
    (hin : offset / s.bs < (s.newChain (s.entry k) (max (s.entry k).len (offset + buffer.length))).length) :
    Carried s (.store names buffer offset) (s.load.written (s.entry k) (320 * k) buffer offset) := by
  have hs := h.orderly
  have hre := written_reworked hs.wf hk.live hfile hsize hroom hright hin
  obtain ⟨fill, hfill, hcontent⟩ :=
    written_fills hs.toSound hk.live hfile hsize hroom hright hin rfl
  have hview := hre.view hs hk hfile
  rw [hcontent, view_load] at hview
  refine ⟨hre.treelike h hk.live hfile, ?_⟩
  change Changes _ _ (s.load.written (s.load.entry k) (320 * k) buffer offset).view
  rw [hview]
  exact .store ((view_some h.unique hk).trans (congrArg some (node_file hfile))) hfill

theorem Treelike.counted (h : Treelike s) (n : ℤ) : Carried s .look { s with blocksFree := n } := by
  obtain ⟨⟨hg, himage, hroot⟩, ⟨⟨⟨hgl, himagel, hrootl⟩, htidy, hcached⟩, hunique⟩, hcopied⟩ := h
  obtain ⟨h₁, h₂, h₃, h₄, h₅, h₆, h₇, h₈⟩ := hg
  refine ⟨⟨⟨⟨h₁, h₂, h₃, h₄, h₅, h₆, h₇, h₈⟩, himage, hroot⟩,
    ⟨⟨⟨⟨h₁, h₂, h₃, h₄, h₅, h₆, h₇, h₈⟩, himagel, hrootl⟩, htidy, hcached⟩, hunique⟩, hcopied⟩, ?_⟩
  exact .look

theorem Call.Tame.not_stops (hw : WellFormed s) {c : Call} (ht : c.Tame s) : ¬ c.Stops s := by
  have hwalks : ∀ {path}, NoDots path → ¬ s.Stuck path := fun hdots =>
    (FatDriver.clean_of_noDots hw hdots).not_stuck hw.geometry
  cases c with
  | mkdir | create | countFree => exact id
  | rmdir | rename => exact ht.elim
  | write | truncate => exact hwalks ht.1.dots
  | unlink => exact hwalks ht
  | utimens | read => exact hwalks ht.dots
  | readdir path =>
    rintro (hstuck | ⟨-, k, hk, hcut⟩)
    · exact hwalks ht hstuck
    · exact hcut.not_readable hw.geometry (hw.image.readable (lookup_live hw ht hk))

theorem Treelike.carries (h : Treelike s) {c : Call} (hc : Legal s c) (ht : c.Tame s) :
    Carried s (c.change s) (c.after s) := by
  have hw := hc.wf
  obtain ⟨hclean, hforward⟩ := hc.reads.resolve_left (ht.not_stops hw)
  obtain ⟨⟨status, t⟩, hrun⟩ := Option.ne_none_iff_exists'.mp hc.returns
  rw [after_eq hrun]
  have hended := ended hw hclean hforward hrun
  cases c with
  | rmdir path | rename srcpath destpath => exact ht.elim
  | mkdir path =>
    obtain ⟨hgood, hslot⟩ := ht
    obtain ⟨dir, name, hpath⟩ := spells_canonical hgood.canonical hgood.below
    obtain ⟨u, hu⟩ := hgood.run
    obtain ⟨rfl, rfl⟩ := Prod.mk.inj (Option.some.inj (hu.symm.trans hrun))
    have hnames : pathNames path = dir ++ [name] := hpath.pathNames
    have hfresh : ∀ k, ¬ s.image.Named (pathNames path) k := hgood.fresh
    rw [hnames] at hfresh
    rw [Call.change, hnames]
    exact h.makes hpath (spelled_bytes hpath hgood.text) hfresh hslot hu
  | create path modes =>
    rcases ht with ⟨hdots, k, hk⟩ | ⟨hgood, hslot⟩
    · rw [Call.change, hk]
      cases hended with
      | found => exact h.looked
      | uncreated hmiss | created hmiss =>
        obtain ⟨status, hl⟩ := ((clean_of_noDots hw hdots).misses_iff hw.geometry).mp hmiss
        cases hk.symm.trans hl
    · obtain ⟨dir, name, hpath⟩ := spells_canonical hgood.canonical hgood.below
      obtain ⟨u, hu⟩ := hgood.run
      obtain ⟨rfl, rfl⟩ := Prod.mk.inj (Option.some.inj (hu.symm.trans hrun))
      have hnames : pathNames path = dir ++ [name] := hpath.pathNames
      have hfresh : ∀ k, ¬ s.image.Named (pathNames path) k := hgood.fresh
      cases hl : s.lookup path with
      | ok k => exact absurd (h.found hpath.noDots hl) (hfresh k)
      | error status =>
        rw [hnames] at hfresh
        rw [Call.change, hl, hnames]
        exact h.creates hpath (spelled_bytes hpath hgood.text) hfresh hslot hu
  | write path buffer offset =>
    obtain ⟨hat, hright⟩ := ht
    cases hended with
    | unwritten hno =>
      cases hl : s.lookup path with
      | error status => rw [Call.change, hl]; exact h.looked
      | ok k => rw [Call.change, hl]; dsimp only; rw [if_pos (hno k hl)]; exact h.looked
    | @written _ _ offset k _ hk hroom hin hend =>
      have hnamed := h.found hat.dots hk
      have hfile := hat.file k hk
      have hread : s.image.Readable (s.entry k) := hw.image.readable hnamed.live
      have hsmall := len_small hw.geometry hread
      rw [Call.change, hk]
      dsimp only
      rw [writtenSize_natCast _ hend, if_neg hroom, Int.toNat_natCast]
      exact h.writes hnamed hfile (by omega) hroom (hright k hk) hin
  | truncate path size =>
    obtain ⟨hat, hright⟩ := ht
    cases hended with
    | unsized _ hno =>
      cases hl : s.lookup path with
      | error status => rw [Call.change, hl]; exact h.looked
      | ok k => rw [Call.change, hl]; dsimp only; rw [if_pos (hno k hl)]; exact h.looked
    | @sized _ _ k hk hroom =>
      have hsize : toSize size < 2 ^ 64 := by
        rw [toSize]
        omega
      rw [Call.change, hk]
      dsimp only
      rw [if_neg hroom]
      exact h.sizes (h.found hat.dots hk) (hat.file k hk) hsize hroom (hright k hk).1 (hright k hk).2
  | unlink path =>
    cases hended with
    | linked _ hno =>
      cases hl : s.lookup path with
      | error status => rw [Call.change, hl]; exact h.looked
      | ok k => rw [Call.change, hl]; dsimp only; rw [if_pos (hno k hl)]; exact h.looked
    | @unlinked _ k hk hfile =>
      have hnamed := h.found ht hk
      rw [Call.change, hk]
      dsimp only
      rw [if_neg (Bool.eq_false_iff.mp hfile)]
      refine ⟨h.removed hnamed.live hfile, ?_⟩
      rw [removed_view h.orderly hnamed hfile, view_load]
      exact .remove ((view_some h.unique hnamed).trans (congrArg some (node_file hfile)))
  | utimens path now =>
    cases hended with
    | unstamped => exact h.looked
    | @stamped _ _ k hk =>
      have hfile := ht.file k hk
      exact h.restored (h.found ht.dots hk) hfile rfl rfl rfl hfile
  | read path size offset =>
    cases hended with
    | unread => exact h.looked
    | @read _ _ k _ _ hk =>
      have hfile := ht.file k hk
      exact h.restored (h.found ht.dots hk) hfile rfl rfl rfl hfile
  | readdir path => cases hended with | listed => exact h.looked
  | countFree =>
    cases hended with
    | known => exact ⟨h, .look⟩
    | counted => exact h.counted _

end Steps

def changes (s : Fs) (calls : List Call) : List (Change (List Str)) :=
  Runs.trace Call.after (fun s c => c.change s) s calls

def Shown (s : Fs) (cs : List (Change (List Str))) (t : Fs) : Prop := NamedStore.Run s.view cs t.view

theorem Shown.nil (s : Fs) : Shown s [] s := NamedStore.Run.nil

theorem Shown.cons (s t u : Fs) (c : Change (List Str)) (cs : List (Change (List Str))) (hc : Shown s [c] t)
    (h : Shown t cs u) : Shown s (c :: cs) u := NamedStore.Run.append hc h

theorem Treelike.shown (s : Fs) (c : Call) (h : Treelike s) (hc : Legal s c ∧ c.Tame s) :
    Treelike (c.after s) ∧ Shown s [c.change s] (c.after s) := by
  obtain ⟨htree, hchange⟩ := h.carries hc.1 hc.2
  exact ⟨htree, Run.single hchange⟩

/-- A run of tame calls is, to those who go by names, a run of what the calls mean. -/
theorem runs_change_store (s : Fs) (h : Treelike s) (calls : List Call)
    (hlegal : Runs.Throughout Call.after Legal s calls)
    (htame : Runs.Throughout Call.after (fun s c => c.Tame s) s calls) :
    Treelike (Runs.after Call.after s calls) ∧
      NamedStore.Run s.view (changes s calls) (Runs.after Call.after s calls).view :=
  Runs.traced_of_throughout h Shown.nil Shown.cons Treelike.shown (Runs.throughout_and.mpr ⟨hlegal, htame⟩)

def Call.names? : Call → Option (List Str)
  | .mkdir path | .create path _ | .write path _ _ | .truncate path _ | .unlink path => some (pathNames path)
  | _ => none

section Stored
variable {s t : Fs} {k : ℕ} {x : List Str}

theorem change_names (s : Fs) (c : Call) : (c.change s).name? = none ∨ (c.change s).name? = c.names? := by
  cases c with
  | mkdir => exact .inr rfl
  | rmdir | rename | utimens | read | readdir | countFree => exact .inl rfl
  | create path modes =>
    rw [Call.change]
    cases s.lookup path with
    | ok => exact .inl rfl
    | error => exact .inr rfl
  | write path | truncate path | unlink path =>
    rw [Call.change]
    cases s.lookup path with
    | error => exact .inl rfl
    | ok k =>
      dsimp only
      split_ifs
      · exact .inl rfl
      · exact .inr rfl

theorem changes_elsewhere {calls : List Call} (hx : ∀ c ∈ calls, c.names? ≠ some x) (s : Fs) :
    ∀ change ∈ changes s calls, change.name? ≠ some x := by
  induction calls generalizing s with
  | nil => exact fun _ h => absurd h List.not_mem_nil
  | cons c calls ih =>
    intro change hmem
    rcases List.mem_cons.mp hmem with rfl | hmem
    · rcases change_names s c with hnone | hsame
      · rw [hnone]
        exact (Option.some_ne_none x).symm
      · rw [hsame]
        exact hx c List.mem_cons_self
    · exact ih (fun c hc => hx c (List.mem_cons_of_mem _ hc)) _ change hmem

theorem view_file {content : List UInt8} (hu : s.image.UniqueNames) (h : s.view x = some (.file content)) :
    ∃ k, s.image.Named x k ∧ (s.entry k).isDirectory = false ∧ s.content (s.entry k) = content := by
  by_cases hex : ∃ k, s.image.Named x k
  · obtain ⟨k, hk⟩ := hex
    rw [view_some hu hk, Option.some.injEq] at h
    by_cases hd : (s.entry k).isDirectory
    · rw [node_directory hd] at h
      cases h
    · have hfile := Bool.eq_false_iff.mpr hd
      rw [node_file hfile] at h
      exact ⟨k, hk, hfile, NamedStore.Node.file.inj h⟩
  · rw [view_none (not_exists.mp hex)] at h
    cases h

theorem read_window {path : Str} {buffer : List UInt8} {offset : ℕ} (hw : WellFormed s) (hdots : NoDots path)
    (hk : s.lookup path = .ok k) (hlive : s.image.Live k) (hfile : (s.entry k).isDirectory = false)
    (hwindow : ((s.content (s.entry k)).drop offset).take buffer.length = buffer) (hsmall : buffer.length < 2 ^ 31)
    (hoff : offset < 2 ^ 63) (htrue : s.ReadsTrue (s.entry k) buffer.length offset) :
    ∃ u, read path buffer.length offset s = some (((buffer.length : ℤ), buffer), u) := by
  have hr : s.image.Readable (s.entry k) := hw.image.readable hlive
  have hwalk := hw.image.walkReadable .root (hw.image.avoidsCopies .root hdots.1 hdots.2)
  have hlen := congrArg List.length hwindow
  rw [List.length_take, List.length_drop, content_length hw.geometry hr] at hlen
  rw [run_read hw hwalk hk hr hfile buffer.length offset hsmall hoff]
  by_cases hle : (s.entry k).len ≤ offset
  · obtain rfl : buffer = [] := List.eq_nil_of_length_eq_zero (by omega)
    rw [if_pos hle]
    exact ⟨_, rfl⟩
  · have hbuffer := (readBuffer_true_iff hw.geometry hr (Nat.lt_of_not_le hle)).mpr htrue
    rw [Nat.min_eq_left (by omega), hwindow] at hbuffer
    rw [if_neg hle, hbuffer]
    exact ⟨_, rfl⟩

end Stored

/-- What is written to a file is read back after every run of tame calls that name other entries, where `read`
reads the content at all. -/
theorem written_read_back (s : Fs) (h : Treelike s) (path : Str) (buffer : List UInt8) (offset : ℕ)
    (calls : List Call) (hlegal : Runs.Throughout Call.after Legal s (.write path buffer offset :: calls))
    (htame : Runs.Throughout Call.after (fun s c => c.Tame s) s (.write path buffer offset :: calls))
    (hstored : ∃ k, s.lookup path = .ok k ∧ ¬ s.TooLarge (s.entry k) (max (s.entry k).len (offset + buffer.length)))
    (hother : ∀ c ∈ calls, c.names? ≠ some (pathNames path)) (hsmall : buffer.length < 2 ^ 31)
    (t : Fs) (hend : Runs.after Call.after s (.write path buffer offset :: calls) = t)
    (htrue : ∀ k, t.lookup path = .ok k → t.ReadsTrue (t.entry k) buffer.length offset) :
    ∃ u, read path buffer.length offset t = some (((buffer.length : ℤ), buffer), u) := by
  obtain ⟨hl, hlegal⟩ := Runs.throughout_cons.mp hlegal
  obtain ⟨ht, htame⟩ := Runs.throughout_cons.mp htame
  obtain ⟨htree, hchange⟩ := h.carries hl ht
  obtain ⟨k, hk, hroom⟩ := hstored
  have hnamed := h.found ht.1.dots hk
  have hread : s.image.Readable (s.entry k) := hl.wf.image.readable hnamed.live
  have hforward : offset + buffer.length < 2 ^ 63 := by
    by_contra hlong
    exact hroom (tooLarge_huge hl.wf.geometry hread (by omega))
  have hstore : (Call.write path buffer offset).change s = .store (pathNames path) buffer offset := by
    rw [Call.change, hk]
    dsimp only
    rw [writtenSize_natCast _ hforward, Int.toNat_natCast, if_neg hroom]
  rw [hstore] at hchange
  have hcalls := Runs.throughout_and.mpr ⟨hlegal, htame⟩
  obtain ⟨htree, hrun⟩ := Runs.traced_of_throughout htree Shown.nil Shown.cons Treelike.shown hcalls
  obtain ⟨content, hview, hwindow⟩ := Run.stored hchange hrun (changes_elsewhere hother _)
  rw [← Runs.after_cons, hend] at htree hview
  obtain ⟨j, hj, hfile, rfl⟩ := view_file htree.unique hview
  have hdots := ht.1.dots
  have hlookup := (lookup_named htree.wf htree.unique hdots).mpr hj
  exact read_window htree.wf hdots hlookup hj.live hfile hwindow hsmall (by omega) (htrue j hlookup)

section Sample
open FatSample

theorem wideDisk_create : Legal wideDisk (.create pathX 0) ∧ Call.Tame wideDisk (.create pathX 0) := by
  have hw := wideDisk_bare.wellFormed
  have hl : wideDisk.lookup pathX = .error (-ENOENT) := wideDisk_bare.lookup_missing (by decide) pathX_noDots
  have hclean := clean_of_noDots hw pathX_noDots
  have hparent : wideDisk.lookupParent (simplifyPath pathX) = .ok wideDisk.image.rootSlot := by
    rw [pathX_simplified]
    rfl
  have hreuses : ¬ wideDisk.load.Reuses wideDisk.image.rootSlot := by
    rintro ⟨k, hk, -⟩
    exact wideDisk_bare.not_child .root hk
  have hroomy : ¬ wideDisk.load.FullDir wideDisk.image.rootSlot := wideDisk_roomy
  have hlen : (wideDisk.load.entry wideDisk.image.rootSlot).len = 640 := wideDisk_bare.len
  have hbs : wideDisk.load.bs = 960 := wideDisk_frame.bs
  have hasks : wideDisk.load.asks wideDisk.image.rootSlot 0 = 2 := by
    rw [Driver.asks, if_neg hreuses, if_neg hroomy, hlen, hbs]
    decide
  have hfree : wideDisk.load.freeList.length = 9 := congrArg List.length wideDisk_freeList
  obtain ⟨r, u, -, hrun⟩ := create_stands hw hclean hl hparent wideDisk_bare.directory (by decide)
    (by rw [hasks, hfree]; decide) 0
  have hcall : (Call.create pathX 0).run wideDisk =
      some (0, u.storeEntry { r.entry with modes := 0 } r.offset) := hrun
  have hfresh : TreeCall.Fresh wideDisk (.create pathX 0) := fun k hk => by
    have hfound := (lookup_named hw wideDisk_bare.unique pathX_noDots).mpr hk
    rw [hl] at hfound
    cases hfound
  refine ⟨⟨hw, .inr ⟨.inl hclean, trivial⟩, fun hnone => ?_⟩,
    .inr ⟨⟨pathX_simplified, by decide, by decide, hfresh, _, hrun⟩, wideDisk.image.rootSlot, rfl, .inr wideDisk_roomy⟩⟩
  rw [hcall] at hnone
  cases hnone

def madeDisk : Fs := (Call.create pathX 0).after wideDisk

theorem madeDisk_file : Treelike madeDisk ∧
    ∃ k, madeDisk.lookup pathX = .ok k ∧ (madeDisk.entry k).isDirectory = false ∧ (madeDisk.entry k).len = 0 := by
  have hl : wideDisk.lookup pathX = .error (-ENOENT) := wideDisk_bare.lookup_missing (by decide) pathX_noDots
  obtain ⟨htree, hchange⟩ := wideDisk_bare.emptyTree.treelike.carries wideDisk_create.1 wideDisk_create.2
  rw [Call.change, hl] at hchange
  change Treelike madeDisk at htree
  change Changes _ _ madeDisk.view at hchange
  have hview : madeDisk.view (pathNames pathX) = some (.file []) := by
    generalize madeDisk.view = v at hchange
    cases hchange with
    | make => exact Function.update_self _ _ _
  obtain ⟨k, hk, hfile, hcontent⟩ := view_file htree.unique hview
  have hread : madeDisk.image.Readable (madeDisk.entry k) := htree.wf.image.readable hk.live
  have hlen := congrArg List.length hcontent
  rw [content_length htree.wf.geometry hread] at hlen
  exact ⟨htree, k, (lookup_named htree.wf htree.unique pathX_noDots).mpr hk, hfile, hlen⟩

theorem madeDisk_write :
    Legal madeDisk (.write pathX [7] (0 : ℕ)) ∧ Call.Tame madeDisk (.write pathX [7] (0 : ℕ)) ∧
    ∃ k, madeDisk.lookup pathX = .ok k ∧
      ¬ madeDisk.TooLarge (madeDisk.entry k) (max (madeDisk.entry k).len (0 + [(7 : UInt8)].length)) := by
  obtain ⟨htree, k, hk, hfile, hlen⟩ := madeDisk_file
  have hw := htree.wf
  have hlive := lookup_live hw pathX_noDots hk
  have hread : madeDisk.image.Readable (madeDisk.entry k) := hw.image.readable hlive
  have hblocks : updiv (max (madeDisk.entry k).len (0 + [(7 : UInt8)].length)) madeDisk.bs ≤ 1 := by
    rw [updiv_le_iff _ _ _ hw.geometry.bs_pos, hlen]
    have hbs := hw.geometry.bs_pos
    change 1 ≤ 1 * madeDisk.bs
    omega
  have hone : 0 < (madeDisk.image.chainOf (madeDisk.entry k)).length :=
    List.length_pos_of_ne_nil hread.owns.ne_nil
  have hroom : ¬ madeDisk.TooLarge (madeDisk.entry k) (max (madeDisk.entry k).len (0 + [(7 : UInt8)].length)) :=
    fun h => absurd h.1 (by omega)
  have honly : ∀ j, madeDisk.lookup pathX = .ok j → j = k := fun j hj => Except.ok.inj (hj.symm.trans hk)
  refine ⟨⟨hw, .inr ⟨opens_of_noDots hw pathX_noDots fun _ => True, fun _ _ => .inr ⟨by decide, by decide⟩⟩,
      fun hnone => ?_⟩, ⟨⟨pathX_noDots, fun j hj => ?_⟩, fun j hj => ?_⟩, k, hk, hroom⟩
  · have hrun :=
      run_write hw (clean_of_noDots hw pathX_noDots) hk hread (hw.image.live_data hlive) [7] 0 (by decide)
      (by decide) (Nat.zero_le _)
    rw [if_neg hroom] at hrun
    have hnone' : write pathX [7] ((0 : ℕ) : ℤ) madeDisk = none := hnone
    rw [hrun] at hnone'
    cases hnone'
  · rw [honly j hj]
    exact hfile
  · rw [honly j hj]
    left
    change Driver.blocksFor _ _ ≤ (madeDisk.image.chainOf (madeDisk.entry k)).length
    rw [Driver.blocksFor]
    exact (max_le le_rfl hblocks).trans hone

/-- The run that makes `/x` and writes one byte to it. -/
theorem runs_change_store_x :
    Treelike (Runs.after Call.after wideDisk [.create pathX 0, .write pathX [7] (0 : ℕ)]) ∧
    NamedStore.Run wideDisk.view (changes wideDisk [.create pathX 0, .write pathX [7] (0 : ℕ)])
      (Runs.after Call.after wideDisk [.create pathX 0, .write pathX [7] (0 : ℕ)]).view := by
  obtain ⟨hlegal, htame⟩ := wideDisk_create
  obtain ⟨hlegal', htame', -⟩ := madeDisk_write
  exact runs_change_store wideDisk wideDisk_bare.emptyTree.treelike [.create pathX 0, .write pathX [7] (0 : ℕ)]
    (Runs.throughout_cons.mpr ⟨hlegal, Runs.throughout_cons.mpr ⟨hlegal', Runs.throughout_nil⟩⟩)
    (Runs.throughout_cons.mpr ⟨htame, Runs.throughout_cons.mpr ⟨htame', Runs.throughout_nil⟩⟩)

theorem readsTrue_one (t : Fs) (e : DirEntry) (hbs : 0 < t.bs) : t.ReadsTrue e 1 0 := by
  rcases Nat.eq_zero_or_pos e.len with hlen | hlen
  · exact .inl hlen.le
  · refine .inr (.inl ⟨hlen, .inl ?_⟩)
    rw [Nat.zero_mod]
    exact hbs

def pathG : Str := slash :: nameG

theorem picture_copied {I : Image} (h : picture.Agree I) : I.Copied := by
  have hw := picture_catalogue.wellFormed
  have hentry : ∀ {k}, k ∈ [4, 5, 16] → I.entry k = lookupEntry entries k := by
    intro k hk
    refine h.entry k ?_
    simp only [List.mem_cons, List.not_mem_nil, or_false] at hk
    rcases hk with rfl | rfl | rfl <;> exact ⟨by decide, by decide⟩
  have hroot : I.rootSlot = 4 := h.rootSlot
  constructor
  · rw [hroot, hentry (by decide), hentry (by decide)]
    exact ⟨⟨by decide, by decide⟩, by decide⟩
  · intro p d hp hchild hdir
    obtain ⟨hs, hlist⟩ := picture_listed h hp hchild.1 hchild.2.1
    rw [h.entry d hs] at hdir
    rcases hlist with ⟨rfl, hd⟩ | ⟨-, rfl⟩
    · simp only [List.mem_cons, List.not_mem_nil, or_false] at hd
      rcases hd with rfl | rfl | rfl | rfl
      · exact absurd hdir (by decide)
      · exact absurd hdir (by decide)
      · have habove : I.dotdotSlot 14 = 16 := by
          rw [Image.dotdotSlot, h.slotAt, h.copies,
            h.chain hw ((picture_catalogue.live_iff 14).mpr (by decide))]
          decide
        rw [habove, hentry (by decide), hentry (by decide)]
        exact ⟨by decide, by decide⟩
      · exact absurd hdir (by decide)
    · exact absurd hdir (by decide)

theorem picture_treelike {s : Fs} (hw : WellFormed s) (h : picture.Agree s.image) : Treelike s where
  wf := hw
  orderly := .of_load hw (picture_tidy h) (picture_unique h)
  copied := picture_copied h

/-- The byte is read back once another file has been unlinked. -/
theorem written_read_back_g : ∃ u, read pathG 1 0
    (Runs.after Call.after disk [.write pathG [7] (0 : ℕ), .unlink pathF]) = some ((1, [7]), u) := by
  have hdots : NoDots pathG := by
    unfold NoDots
    decide
  have hk : disk.lookup pathG = .ok 7 := (disk_lookup pathG hdots).trans (by decide)
  have honly : ∀ j, disk.lookup pathG = .ok j → j = 7 := fun j hj => Except.ok.inj (hj.symm.trans hk)
  have hreturns : (write pathG [7] 0 disk).isSome := by decide +kernel
  have hreturns' : (unlink pathF ((Call.write pathG [7] (0 : ℕ)).after disk)).isSome := by decide +kernel
  have hroom : ¬ disk.TooLarge (disk.entry 7) (max (disk.entry 7).len (0 + [(7 : UInt8)].length)) := by
    decide +kernel
  have hlegal : Legal disk (.write pathG [7] (0 : ℕ)) :=
    ⟨disk_wellFormed,
      .inr ⟨opens_of_noDots disk_wellFormed hdots fun _ => True, fun _ _ => .inr ⟨by decide, by decide⟩⟩,
      Option.isSome_iff_ne_none.mp hreturns⟩
  have htame : Call.Tame disk (.write pathG [7] (0 : ℕ)) := by
    refine ⟨⟨hdots, fun j hj => ?_⟩, fun j hj => ?_⟩
    · rw [honly j hj]
      exact disk_file_g
    · rw [honly j hj]
      right
      rw [disk_chain_g]
      rfl
  have hdisk : Treelike disk := picture_treelike disk_wellFormed disk_agree
  have htree := (hdisk.carries hlegal htame).tree
  have hlegal' : Legal ((Call.write pathG [7] (0 : ℕ)).after disk) (.unlink pathF) :=
    ⟨htree.wf, .inr ⟨opens_of_noDots htree.wf pathF_noDots fun e => e.isDirectory = false, trivial⟩,
      Option.isSome_iff_ne_none.mp hreturns'⟩
  have hlegals := Runs.throughout_cons.mpr ⟨hlegal, Runs.throughout_cons.mpr ⟨hlegal', Runs.throughout_nil⟩⟩
  have htames : Runs.Throughout Call.after (fun s c => c.Tame s) disk [.write pathG [7] (0 : ℕ), .unlink pathF] :=
    Runs.throughout_cons.mpr ⟨htame, Runs.throughout_cons.mpr ⟨pathF_noDots, Runs.throughout_nil⟩⟩
  have hend := (Runs.traced_of_throughout hdisk Shown.nil Shown.cons Treelike.shown
    (Runs.throughout_and.mpr ⟨hlegals, htames⟩)).1
  have hother : ∀ c ∈ [Call.unlink pathF], c.names? ≠ some (pathNames pathG) := by
    intro c hc
    rw [List.mem_singleton.mp hc]
    decide
  have hbs := hend.wf.geometry.bs_pos
  generalize ht : Runs.after Call.after disk [.write pathG [7] (0 : ℕ), .unlink pathF] = t at hbs ⊢
  exact written_read_back disk hdisk pathG [7] 0 [.unlink pathF] hlegals htames ⟨7, hk, hroom⟩ hother
    (by decide) t ht fun k _ => readsTrue_one t _ hbs

end Sample

end Thorn.FatDriver

import Thorn.LexicalPaths

set_option autoImplicit false

namespace Thorn.FatDriver
open ByteStore Paths FatTypes FatOperations FatImage LinkedChain

/-- A file system that is orderly once its root is loaded, whose copies lead to the directories above. -/
structure Treelike (s : Fs) : Prop where
  wf : WellFormed s
  orderly : Orderly s.load
  copied : s.image.Copied

/-- The root lists nothing but its copies, and no freed slot keeps a block number. -/
structure EmptyTree (s : Fs) : Prop where
  wf : WellFormed s
  tidy : s.image.Tidy
  empty : ∀ k, ¬ s.image.Child s.image.rootSlot k
  copy : Image.Alike (s.entry (s.image.rootSlot + 1)) (s.entry s.image.rootSlot)

inductive TreeCall
  | mkdir (path : Str)
  | create (path : Str) (modes : BitVec 32)
  | unlink (path : Str)

namespace TreeCall

def path : TreeCall → Str
  | mkdir path | create path _ | unlink path => path

def call : TreeCall → Call
  | mkdir path => .mkdir path
  | create path modes => .create path modes
  | unlink path => .unlink path

def after (s : Fs) (c : TreeCall) : Fs := c.call.after s

def Fresh (s : Fs) : TreeCall → Prop
  | mkdir path | create path _ => ∀ k, ¬ s.image.Named (pathNames path) k
  | unlink _ => True

structure Succeeds (s : Fs) (c : TreeCall) : Prop where
  canonical : simplifyPath c.path = c.path
  below : c.path ≠ [slash]
  text : (0 : UInt8) ∉ c.path
  fresh : c.Fresh s
  run : ∃ t, c.call.run s = some (0, t)

def Fits (s : Fs) : TreeCall → Prop
  | mkdir path | create path _ => s.HasSlot path
  | unlink _ => True

end TreeCall

section Steps
variable {s t v : Fs} {path name : Str} {dir : List Str}

theorem EmptyTree.treelike (h : EmptyTree s) : Treelike s := by
  have hlive : ∀ q, s.image.Live q → q = s.image.rootSlot := by
    intro q hq
    induction hq with
    | root => rfl
    | @child p k hp hk ih =>
      rw [ih] at hk
      exact absurd hk (h.empty k)
  have hnone : ∀ p k, s.image.Live p → ¬ s.image.Child p k := fun p k hp hk => h.empty k (hlive p hp ▸ hk)
  exact ⟨h.wf, .of_load h.wf h.tidy fun p k _ hp hk => absurd hk (hnone p k hp),
    h.copy, fun p d hp hd => absurd hd (hnone p d hp)⟩

theorem Bare.emptyTree (h : Bare s) : EmptyTree s where
  wf := h.wellFormed
  tidy := h.tidy
  empty _ hk := h.not_child .root hk.2.1
  copy := by
    rw [h.copy]
    exact ⟨⟨rfl, rfl⟩, rfl⟩

theorem spells_canonical (hpath : simplifyPath path = path) (hne : path ≠ [slash]) :
    ∃ dir name, Spells path (dir ++ [name]) := by
  have htext := (simplifyPath_canonical path).symm.trans hpath
  have hnames : stackOf path ≠ [] := by
    intro hnil
    rw [canonical, hnil] at htext
    exact hne htext.symm
  obtain ⟨dir, name, hsplit⟩ := (List.eq_nil_or_concat' (stackOf path)).resolve_left hnames
  refine ⟨dir, name, hsplit ▸ hnames, fun n hn => stackOf_plain path n (hsplit ▸ hn), [slash], [], .inr rfl,
    .inl rfl, ?_⟩
  rw [← hsplit, List.append_nil]
  exact htext.symm

theorem Housed.treelike {u : Fs} {length : ℕ} {type : FileType} {p k f : ℕ} {fs : List ℕ} {r : NewFileResult}
    {e : DirEntry} (hh : Housed s v u path length type p k f fs r) (hs : Orderly s) (hc : s.image.Copied)
    (ht : Filled v t k f e) (hsmall : e.len ≤ sizeofDirEntry) (hnew : e.name.toStr ∉ s.image.namesIn p)
    (hdir : e.isDirectory → e.len = sizeofDirEntry ∧ t.entry (f * v.image.epb) = (v.entry p).setName dotDotName) :
    Treelike t := by
  have hvw := hh.vacant.sound.wf
  have hsize := blocksFor_small hvw.geometry hsmall
  have hempty : e.isDirectory →
      e.len = sizeofDirEntry ∧ (t.entry (f * v.image.epb)).name.toStr = dotDotName := by
    intro hd
    rw [(hdir hd).2]
    exact ⟨(hdir hd).1, Filename.ofBytes_toStr dotDotName (by decide) (by decide)⟩
  have hadd := hh.vacant.added hh.target.free hs.wf ht hsize hempty
  have hord := (hh.vacant.filled hs.unique hh.target.free hs.wf ht hsize hempty hnew).orderly
  refine ⟨hord.wf, .of_load hord.wf hord.tidy hord.unique, ?_⟩
  refine hadd.copied hvw.image (hh.copied hc) fun hd => ?_
  have hcopy : t.image.entry (f * v.image.epb) = (v.entry p).setName dotDotName :=
    (hdir ((congrArg DirEntry.isDirectory ht.new).symm.trans hd)).2
  rw [hadd.entry_live hvw.image hh.vacant.live, hcopy]
  exact ⟨rfl, rfl⟩

theorem Treelike.load (h : Treelike s) : Treelike s.load :=
  ⟨h.orderly.wf, .of_load h.orderly.wf h.orderly.tidy h.orderly.unique, h.copied⟩

theorem Treelike.unique (h : Treelike s) : s.image.UniqueNames := h.orderly.unique

theorem not_listed {p : ℕ} (hp : s.image.Named dir p) (hfresh : ∀ k, ¬ s.image.Named (dir ++ [name]) k) :
    name ∉ s.image.namesIn p := by
  rintro ⟨k, hk, rfl⟩
  exact hfresh k (hp.child hk)

theorem Treelike.created (h : Treelike s) (hpath : Spells path (dir ++ [name])) (hnul : (0 : UInt8) ∉ name)
    (hfresh : ∀ k, ¬ s.image.Named (dir ++ [name]) k) (hslot : s.HasSlot path) {modes : BitVec 32}
    (hrun : create path modes s = some (0, t)) : Treelike t := by
  rcases run_create h.wf (clean_of_noDots h.wf hpath.noDots) modes with ⟨k, -, hr⟩ | ⟨status, r, u, hl, hc, hr⟩
  · rw [hrun, Option.some.injEq, Prod.mk.injEq] at hr
    exact absurd hr.1 (by decide)
  · rw [hrun, Option.some.injEq] at hr
    split_ifs at hr with hneg
    · have hzero : 0 = r.status := congrArg Prod.fst hr
      omega
    · obtain rfl : t = u.storeEntry { r.entry with modes := modes } r.offset := congrArg Prod.snd hr
      obtain ⟨hlast, p, v, k, f, fs, hp, hh⟩ := newFile_housed h.orderly.toSound hpath hslot hc hneg
      have hname :
          ({ ownEntry (simplifyPath path) 0 .File f with modes := modes } : DirEntry).name.toStr = name :=
        (hh.name (by rw [hlast]; exact hnul)).trans hlast
      have hfile := fileEntry_file (simplifyPath path) f modes
      exact hh.treelike h.orderly h.copied (hh.stored h.orderly.wf modes) (Nat.zero_le _)
        (by rw [hname]; exact not_listed hp hfresh) fun hd => absurd (hfile.symm.trans hd) (by decide)

theorem Treelike.made_housed (h : Treelike s) (hpath : Spells path (dir ++ [name])) (hnul : (0 : UInt8) ∉ name)
    (hslot : s.HasSlot path) (hrun : mkdir path s = some (0, t)) : ∃ p v u k f fs r, s.image.Named dir p ∧
      Housed s.load v u (simplifyPath path) sizeofDirEntry .Directory p k f fs r ∧
      Filled v t k f (ownEntry (simplifyPath path) sizeofDirEntry .Directory f) ∧
      t.entry (f * v.image.epb) = (v.entry p).setName dotDotName ∧
      (ownEntry (simplifyPath path) sizeofDirEntry .Directory f).name.toStr = name := by
  obtain ⟨r, u, hc, hr⟩ := run_mkdir h.wf path
  rw [hrun, Option.some.injEq] at hr
  split_ifs at hr with hneg
  · have hzero : 0 = r.status := congrArg Prod.fst hr
    omega
  · obtain rfl : t = u.storeEntry (r.parent.setName dotDotName) (mul32 r.entry.start u.bs) :=
      congrArg Prod.snd hr
    obtain ⟨hlast, p, v, k, f, fs, hp, hh⟩ := newFile_housed h.orderly.toSound hpath hslot hc hneg
    obtain ⟨hfilled, hcopy⟩ := hh.opened h.orderly.wf
    exact ⟨p, v, u, k, f, fs, r, hp, hh, hfilled, hcopy, (hh.name (by rw [hlast]; exact hnul)).trans hlast⟩

theorem Treelike.made (h : Treelike s) (hpath : Spells path (dir ++ [name])) (hnul : (0 : UInt8) ∉ name)
    (hfresh : ∀ k, ¬ s.image.Named (dir ++ [name]) k) (hslot : s.HasSlot path)
    (hrun : mkdir path s = some (0, t)) : Treelike t := by
  obtain ⟨p, v, u, k, f, fs, r, hp, hh, hfilled, hcopy, hname⟩ := h.made_housed hpath hnul hslot hrun
  have hlen : (ownEntry (simplifyPath path) sizeofDirEntry .Directory f).len = sizeofDirEntry := rfl
  exact hh.treelike h.orderly h.copied hfilled hlen.le (by rw [hname]; exact not_listed hp hfresh)
    fun _ => ⟨hlen, hcopy⟩

/-- Behind names that lead to the slot `k` there is a directory with nothing in it but its `..`, which has the length
that the directory above has. -/
structure Opened (t : Fs) (names : List Str) (k : ℕ) : Prop where
  named : t.image.Named names k
  below : k ≠ t.image.rootSlot
  directory : (t.entry k).isDirectory
  slots : t.image.slots k = [t.image.dotdotSlot k]
  above : ∀ p, t.image.Live p → t.image.Child p k → (t.entry (t.image.dotdotSlot k)).len = (t.entry p).len

theorem Treelike.opened (h : Treelike s) (hpath : Spells path (dir ++ [name])) (hnul : (0 : UInt8) ∉ name)
    (hslot : s.HasSlot path) (hrun : mkdir path s = some (0, t)) : ∃ k, Opened t (dir ++ [name]) k := by
  obtain ⟨p, v, u, k, f, fs, r, hp, hh, hfilled, hcopy, hname⟩ := h.made_housed hpath hnul hslot hrun
  have hvw := hh.vacant.sound.wf
  have hlen : (ownEntry (simplifyPath path) sizeofDirEntry .Directory f).len = sizeofDirEntry := rfl
  have hdot : (t.entry (f * v.image.epb)).name.toStr = dotDotName := by
    rw [hcopy]
    exact Filename.ofBytes_toStr dotDotName (by decide) (by decide)
  have hadd := hh.vacant.added hh.target.free h.orderly.wf hfilled (blocksFor_small hvw.geometry hlen.le)
    fun _ => ⟨hlen, hdot⟩
  have hkname : (t.image.entry k).name.toStr = name := (congrArg (·.name.toStr) hfilled.new).trans hname
  have hbelow : k ≠ t.image.rootSlot := hadd.shape.rootSlot.symm ▸ hadd.ne_rootSlot hvw.image
  have hchain : t.image.chain k = [f] := hadd.owns_new.chainOf_eq
  have hfirst : t.image.dotdotSlot k = f * v.image.epb := by
    rw [Image.dotdotSlot_below hbelow, hchain, Image.slotAt, Nat.zero_div, Nat.zero_mod, hadd.shape.epb]
    rfl
  refine ⟨k, ?_, hbelow, (congrArg DirEntry.isDirectory hfilled.new).trans rfl, ?_, ?_⟩
  · rw [← hkname]
    exact (hadd.named hvw.image (hh.vacant.named dir p hp)).child (hadd.child_new hvw.image)
  · have hcount : t.image.count k = 1 := by
      rw [Image.count, show t.image.entry k = _ from hfilled.new, hlen]
      rfl
    rw [Image.slots, hcount, Image.dotdotSlot_below hbelow]
    rfl
  · intro q hq hk
    obtain rfl := (hadd.wellFormed hvw.image).child_unique hq (hadd.reached hvw.image hh.vacant.live) hk
      (hadd.child_new hvw.image)
    have hsame : t.entry q = v.entry q := hadd.entry_live hvw.image hh.vacant.live
    rw [hfirst, hcopy, hsame]
    rfl

theorem Opened.no_dot {k : ℕ} (h : Treelike t) (ho : Opened t [name] k) (hname : Image.Dotless [name]) :
    t.image.WalkReadable t.image.rootSlot [name, dotName] ∧
      t.image.resolve t.image.rootSlot [name, dotName] = .error (-ENOENT) := by
  have hw := h.wf.image
  have hk := ho.named.live
  have hnone : t.image.findSlot k dotName = none := by
    have hdots : (t.image.entry (t.image.dotdotSlot k)).name.toStr = dotDotName :=
      hw.dotdotSlot_name hk ho.directory
    have hne : dotDotName ≠ dotName := by decide
    rw [Image.findSlot, ho.slots, List.find?_cons_of_neg (by simp [hdots, hne]), List.find?_nil]
  have hfind := (hw.findSlot_named h.unique .root hw.root_directory hname).mpr ho.named
  have hroot : t.image.Walkable t.image.rootSlot := (hw.walkable_iff .root).mpr hw.root_directory
  have hwalk : t.image.Walkable k := (hw.walkable_iff hk).mpr ho.directory
  refine ⟨Image.walkReadable_found (hw.readable .root) hfind
    (Image.walkReadable_stopped (hw.readable hk) fun j hj => ?_), ?_⟩
  · rw [hnone] at hj
    cases hj
  · rw [Image.resolve_cons_found hroot hfind (Image.not_file ho.directory), Image.resolve, if_pos hwalk, hnone]

theorem Treelike.unlinked (h : Treelike s) (hpath : Spells path (dir ++ [name]))
    (hrun : unlink path s = some (0, t)) : Treelike t := by
  rw [run_unlink h.wf (opens_of_noDots h.wf hpath.noDots _), Option.some.injEq] at hrun
  cases hl : s.lookup path with
  | error status =>
    rw [hl] at hrun
    have hneg := lookup_neg hl
    have hzero : status = 0 := congrArg Prod.fst hrun
    omega
  | ok k =>
    rw [hl] at hrun
    dsimp only at hrun
    split_ifs at hrun with hdir
    · exact absurd (congrArg Prod.fst hrun) (show (-EISDIR : ℤ) ≠ 0 by decide)
    · obtain rfl : s.load.removed k = t := congrArg Prod.snd hrun
      have hk := (lookup_named h.wf h.unique hpath.noDots).mp hl
      have hfile : (s.load.entry k).isDirectory = false := Bool.eq_false_iff.mpr hdir
      have hw := h.orderly.wf.image
      have hr := hw.ne_root_of_file hfile
      rw [hpath.pathNames] at hk
      obtain ⟨p, hp, hc, -⟩ := hk.pop
      have hord := (removed_relists h.orderly hp hc.1 hpath hl hfile).orderly
      have hfreed := removed_freed h.orderly.wf hk.live hr
      exact ⟨hord.wf, .of_load hord.wf hord.tidy hord.unique,
        hfreed.copied hw hk.live hr (Image.leaf_of_file hfile) h.copied⟩

theorem spelled_bytes (hpath : Spells path (dir ++ [name])) (htext : (0 : UInt8) ∉ path) :
    (0 : UInt8) ∉ name := by
  have hlast : lastName path = name := by rw [lastName, hpath.pathNames, List.getLastD_concat]
  exact fun h => htext (lastName_bytes (hlast ▸ h))

theorem Treelike.after (h : Treelike s) {c : TreeCall} (hc : c.Succeeds s) (hf : c.Fits s) :
    Treelike (c.after s) := by
  obtain ⟨dir, name, hpath⟩ := spells_canonical hc.canonical hc.below
  obtain ⟨t, hrun⟩ := hc.run
  have hnul := spelled_bytes hpath hc.text
  have hfresh := hc.fresh
  rw [TreeCall.after, after_eq hrun]
  cases c with
  | mkdir path => exact h.made hpath hnul (hpath.pathNames ▸ hfresh) hf hrun
  | create path modes => exact h.created hpath hnul (hpath.pathNames ▸ hfresh) hf hrun
  | unlink path => exact h.unlinked hpath hrun

end Steps

def ResolvesAlike (s : Fs) (path path' : Str) : Prop := ∃ r r', s.Finds path r ∧ s.Finds path' r' ∧
  r.status = r'.status ∧ (0 ≤ r.status → Image.Alike r.entry r'.entry)

theorem Treelike.find_lexical {s : Fs} (h : Treelike s) {path : Str}
    (hdots : s.image.DotsInside (pathNames path))
    (hpace : s.image.KeepsPace (pathNames path)) : ResolvesAlike s path (simplifyPath path) := by
  have hw := h.wf.image
  have hroot : s.image.Named (([] : List Str).foldl push []) s.image.rootSlot := .root
  obtain ⟨hread, hend⟩ := hw.resolve_lexical h.unique h.copied hdots hpace (List.nil_append _) hroot
    hw.root_directory (.refl _)
  have hnames : pathNames (simplifyPath path) = (pathNames path).foldl push [] := by
    rw [pathNames_simplifyPath, simplified_stack, pathNames_push]
  have hclean := clean_of_noDots h.wf (simplifyPath_noDots path)
  refine ⟨_, _, ⟨_, run_find h.wf path hread⟩, ⟨_, run_find_clean h.wf hclean⟩, ?_⟩
  rw [Driver.lookup, Driver.lookup, hnames]
  generalize s.image.resolve s.image.rootSlot (pathNames path) = a at hend
  generalize s.image.resolve s.image.rootSlot ((pathNames path).foldl push []) = b at hend
  cases hend with
  | error status => exact ⟨rfl, fun _ => .refl _⟩
  | ok halike => exact ⟨rfl, fun _ => halike⟩

/-- Through every run of successful calls that needs no further block for a directory, dots on the disk lead where
the simplified path leads, as far as the path keeps to the copies that are up to date. -/
theorem lexical_agrees (s : Fs) (hs : EmptyTree s) (calls : List TreeCall)
    (hcalls : Runs.Throughout TreeCall.after TreeCall.Succeeds s calls)
    (hfits : Runs.Throughout TreeCall.after TreeCall.Fits s calls) (path : Str)
    (hdots : (Runs.after TreeCall.after s calls).image.DotsInside (pathNames path))
    (hpace : (Runs.after TreeCall.after s calls).image.KeepsPace (pathNames path)) :
    ResolvesAlike (Runs.after TreeCall.after s calls) path (simplifyPath path) := by
  have hkeep : ∀ s c, Treelike s → c.Succeeds s → c.Fits s → Treelike (TreeCall.after s c) :=
    fun _ _ h hc hf => h.after hc hf
  exact (Runs.always_of_throughout hs.treelike hkeep hcalls hfits).after.find_lexical hdots hpace

section Sample
open FatSample

theorem wideDisk_roomy : ¬ wideDisk.FullDir wideDisk.image.rootSlot := by
  rw [Driver.FullDir, wideDisk_bare.len, wideDisk_frame.bs]
  decide

theorem wideDisk_mkdir : ∃ t, mkdir pathX wideDisk = some (0, t) := by
  have hw := wideDisk_bare.wellFormed
  have hparent : wideDisk.lookupParent (simplifyPath pathX) = .ok wideDisk.image.rootSlot := by
    rw [pathX_simplified]
    rfl
  have hreuses : ¬ wideDisk.load.Reuses wideDisk.image.rootSlot := by
    rintro ⟨k, hk, -⟩
    exact wideDisk_bare.not_child .root hk
  have hlen : (wideDisk.load.entry wideDisk.image.rootSlot).len = 640 := wideDisk_bare.len
  have hbs : wideDisk.load.bs = 960 := wideDisk_frame.bs
  have hasks : wideDisk.load.asks wideDisk.image.rootSlot sizeofDirEntry = 2 := by
    have hroomy : ¬ wideDisk.load.FullDir wideDisk.image.rootSlot := wideDisk_roomy
    rw [Driver.asks, if_neg hreuses, if_neg hroomy, hlen, hbs]
    decide
  have hfree : wideDisk.load.freeList.length = 9 := congrArg List.length wideDisk_freeList
  obtain ⟨r, u, hrun, hyes, -⟩ :=
    newFile_ends hw (clean_simplified hw pathX) hparent wideDisk_bare.directory (by decide)
    sizeofDirEntry .Directory none
  have hstatus : r.status = 0 := (hyes (by rw [hasks, hfree]; decide)).status
  unfold mkdir
  rw [run_bind, hrun, Option.bind_some, run_ite, if_neg (by rw [hstatus]; exact lt_irrefl _), run_bind, run_get,
    Option.bind_some, run_bind, run_writeEntry, Option.bind_some, run_ite, if_neg (lt_irrefl _), run_pure]
  exact ⟨_, rfl⟩

theorem wideDisk_calls : Runs.Throughout TreeCall.after TreeCall.Succeeds wideDisk [.mkdir pathX] ∧
    Runs.Throughout TreeCall.after TreeCall.Fits wideDisk [.mkdir pathX] := by
  have hfresh : TreeCall.Fresh wideDisk (.mkdir pathX) := by
    intro k hk
    have hk' : wideDisk.image.Named ([] ++ [[120]]) k := hk
    obtain ⟨p, hp, hchild, -⟩ := hk'.pop
    exact wideDisk_bare.not_child hp.live hchild.2.1
  exact ⟨Runs.throughout_cons.mpr ⟨⟨pathX_simplified, by decide, by decide, hfresh, wideDisk_mkdir⟩,
    Runs.throughout_nil⟩,
    Runs.throughout_cons.mpr ⟨⟨wideDisk.image.rootSlot, rfl, .inr wideDisk_roomy⟩, Runs.throughout_nil⟩⟩

theorem wideDisk_opened : Treelike (Runs.after TreeCall.after wideDisk [.mkdir pathX]) ∧
    ∃ k, Opened (Runs.after TreeCall.after wideDisk [.mkdir pathX]) [[120]] k := by
  have htree := wideDisk_bare.emptyTree.treelike
  obtain ⟨t, hrun⟩ := wideDisk_mkdir
  have hslot : wideDisk.HasSlot pathX := ⟨wideDisk.image.rootSlot, rfl, .inr wideDisk_roomy⟩
  have hcall : (TreeCall.mkdir pathX).call.run wideDisk = some (0, t) := hrun
  have hafter : TreeCall.after wideDisk (.mkdir pathX) = t := by rw [TreeCall.after, after_eq hcall]
  have htree' := htree.after (Runs.throughout_cons.mp wideDisk_calls.1).1 hslot
  rw [Runs.after_cons, Runs.after_nil]
  rw [hafter] at htree' ⊢
  have hspells : Spells pathX ([] ++ [[120]]) := pathX_spells
  have hopened := htree.opened hspells (by decide) hslot hrun
  exact ⟨htree', hopened⟩

def dottedX : Str := pathX ++ slash :: dotName

def aroundX : Str := slash :: dotName ++ pathX ++ slash :: dotDotName

theorem dots_dottedX {t : Fs} {k : ℕ} (h : Opened t [[120]] k) : t.image.DotsInside (pathNames dottedX) := by
  have hnames : pathNames dottedX = [[120], dotName] := by decide
  rw [hnames]
  intro pre name rest heq hdot
  rcases pre with _ | ⟨a, _ | ⟨b, pre⟩⟩
  · simp only [List.nil_append, List.cons.injEq] at heq
    rw [← heq.1] at hdot
    exact absurd hdot (by decide)
  · simp only [List.cons_append, List.nil_append, List.cons.injEq] at heq
    rw [← heq.1]
    exact ⟨k, h.named, h.directory⟩
  · simp at heq

theorem aroundX_names : pathNames aroundX = [dotName, [120], dotDotName] := by decide

theorem dots_aroundX {t : Fs} {k : ℕ} (hw : WellFormed t) (h : Opened t [[120]] k) :
    t.image.DotsInside (pathNames aroundX) := by
  rw [aroundX_names]
  intro pre name rest heq hdot
  rcases pre with _ | ⟨a, _ | ⟨b, _ | ⟨c, pre⟩⟩⟩
  · exact ⟨_, .root, hw.image.root_directory⟩
  · simp only [List.cons_append, List.nil_append, List.cons.injEq] at heq
    rw [← heq.2.1] at hdot
    exact absurd hdot (by decide)
  · simp only [List.cons_append, List.nil_append, List.cons.injEq] at heq
    rw [← heq.1, ← heq.2.1]
    exact ⟨k, h.named, h.directory⟩
  · simp at heq

theorem pace_aroundX {t : Fs} {k : ℕ} (hu : t.image.UniqueNames) (h : Opened t [[120]] k) :
    t.image.KeepsPace (pathNames aroundX) := by
  rw [aroundX_names]
  refine ⟨by decide, fun pre rest heq => ?_, fun pre rest p d heq hd hp hk => ?_⟩
  · rcases pre with _ | ⟨a, _ | ⟨b, _ | ⟨c, pre⟩⟩⟩
    · rfl
    · simp only [List.cons_append, List.nil_append, List.cons.injEq] at heq
      exact absurd heq.2.1 (by decide)
    · simp only [List.cons_append, List.nil_append, List.cons.injEq] at heq
      exact absurd heq.2.2.1 (by decide)
    · simp at heq
  · rcases pre with _ | ⟨a, _ | ⟨b, _ | ⟨c, pre⟩⟩⟩
    · simp only [List.nil_append, List.cons.injEq] at heq
      exact absurd heq.1 (by decide)
    · simp only [List.cons_append, List.nil_append, List.cons.injEq] at heq
      exact absurd heq.2.1 (by decide)
    · simp only [List.cons_append, List.nil_append, List.cons.injEq] at heq
      rw [← heq.1, ← heq.2.1] at hd
      obtain rfl := hu.named_eq hd h.named
      exact h.above p hp hk
    · simp at heq

/-- Around `/x` and back to the root. -/
theorem lexical_agrees_x :
    ResolvesAlike (Runs.after TreeCall.after wideDisk [.mkdir pathX]) aroundX (simplifyPath aroundX) := by
  obtain ⟨htree, k, hk⟩ := wideDisk_opened
  have hdots := dots_aroundX htree.wf hk
  have hpace := pace_aroundX htree.unique hk
  exact lexical_agrees wideDisk wideDisk_bare.emptyTree [.mkdir pathX] wideDisk_calls.1 wideDisk_calls.2 aroundX
    hdots hpace

/-- `find` does not find `/x/.`, but does find `/x`. -/
theorem dot_not_found : EmptyTree wideDisk ∧
    Runs.Throughout TreeCall.after TreeCall.Succeeds wideDisk [.mkdir pathX] ∧
    (Runs.after TreeCall.after wideDisk [.mkdir pathX]).image.DotsInside (pathNames dottedX) ∧
    ¬ ResolvesAlike (Runs.after TreeCall.after wideDisk [.mkdir pathX]) dottedX (simplifyPath dottedX) := by
  obtain ⟨htree, k, hk⟩ := wideDisk_opened
  refine ⟨wideDisk_bare.emptyTree, wideDisk_calls.1, dots_dottedX hk, ?_⟩
  generalize Runs.after TreeCall.after wideDisk [.mkdir pathX] = t at htree hk
  rintro ⟨r, r', ⟨u, hr⟩, ⟨u', hr'⟩, hstatus, -⟩
  have hsimple : simplifyPath dottedX = pathX := by decide
  obtain ⟨hread, hnone⟩ := hk.no_dot htree pathX_noDots
  have hmissing : t.lookup dottedX = .error (-ENOENT) := hnone
  have hfound : t.lookup pathX = .ok k := (lookup_named htree.wf htree.unique pathX_noDots).mpr hk.named
  rw [run_find htree.wf dottedX hread, hmissing] at hr
  rw [hsimple, run_find_clean htree.wf (clean_of_noDots htree.wf pathX_noDots), hfound] at hr'
  obtain ⟨rfl, -⟩ := Prod.mk.inj (Option.some.inj hr)
  obtain ⟨rfl, -⟩ := Prod.mk.inj (Option.some.inj hr')
  have hzero : (-ENOENT : ℤ) = 0 := hstatus
  exact absurd hzero (by decide)

end Sample

end Thorn.FatDriver

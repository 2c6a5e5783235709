import Thorn.CreatedFiles
import Thorn.CanonicalPaths
import Thorn.CountedCalls
import Thorn.EmptyDisk

set_option autoImplicit false

namespace Thorn.FatDriver
open ByteStore Paths FatTypes FatOperations FatImage LinkedChain

theorem Sound.load_eq {s : Fs} (h : Sound s) : s.load = s := by
  rw [Driver.load, ← h.root]

theorem Orderly.of_load {s : Fs} (hw : WellFormed s) (ht : s.image.Tidy) (hu : s.image.UniqueNames) : Orderly s.load :=
  ⟨⟨hw.load, ht, rfl⟩, hu⟩

section Steps
variable {s t : Fs} {q : ℕ} {dir : List Str} {path name : Str}

theorem name_not_listed (h : Orderly s) (hq : s.image.Named dir q) (hdot : NoDots path)
    (hpath : pathNames path = dir ++ [name]) {status : ℤ} (hl : s.lookup path = .error status) :
    name ∉ s.image.namesIn q := by
  rintro ⟨k, hk, rfl⟩
  rw [(lookup_named h.wf h.unique hdot).mpr (hpath ▸ hq.child hk)] at hl
  cases hl

theorem fileEntry_file (path : Str) (f : ℕ) (modes : BitVec 32) :
    ({ ownEntry path 0 .File f with modes := modes } : DirEntry).isDirectory = false := rfl

/-- With a freed slot or room behind the last entry, what `newFile` makes is housed in the directory of its path. -/
theorem newFile_housed (h : Sound s) (hpath : Spells path (dir ++ [name])) (hslot : s.HasSlot path) {length : ℕ}
    {type : FileType} {r : NewFileResult} {u : Fs} (hc : Created s (simplifyPath path) length type r u)
    (hneg : ¬ r.status < 0) : lastName (simplifyPath path) = name ∧ ∃ p v k f fs, s.image.Named dir p ∧
      Housed s v u (simplifyPath path) length type p k f fs r := by
  have hps := hpath.pathNames_simplify
  have hlast : lastName (simplifyPath path) = name := by
    rw [lastName, hps, List.getLastD_concat]
  obtain ⟨p, hp, hplace⟩ := hslot
  have hparent : s.lookupParent (simplifyPath path) = .ok p := by
    rw [Driver.lookupParent, hps, ← hpath.pathNames]
    exact hp
  have hdotless : Image.Dotless (dir ++ [name]) := hpath.pathNames ▸ hpath.noDots
  have hnamed : s.image.Named dir p := by
    rw [Driver.lookupParent, hpath.pathNames, List.dropLast_concat] at hp
    exact Image.Named.root.walkDirs (h.wf.image.avoidsCopies .root hdotless.take.1 hdotless.take.2) hp
  obtain ⟨v, k, f, fs, hh⟩ := created_housed h hparent hnamed.live hplace hc hneg
  exact ⟨hlast, p, v, k, f, fs, hnamed, hh⟩

theorem blocksFor_small {v : Fs} (hg : Geometry v) {n : ℕ} (hn : n ≤ sizeofDirEntry) : v.image.blocksFor n = 1 := by
  have hle : updiv n v.image.bs ≤ 1 := by
    rw [updiv_le_iff _ _ _ (hg.image_bs ▸ hg.bs_pos), hg.image_bs]
    have := hg.blockSize
    omega
  rw [Image.blocksFor]
  omega

theorem created_relists (h : Orderly s) (hq : s.image.Named dir q) (hpath : Spells path (dir ++ [name]))
    (hnul : (0 : UInt8) ∉ name) {status : ℤ} (hl : s.lookup path = .error status) (hslot : s.HasSlot path)
    {r : NewFileResult} {u : Fs} (hc : Created s (simplifyPath path) 0 .File r u) (hneg : ¬ r.status < 0)
    (modes : BitVec 32) :
    Relisted s (u.storeEntry { r.entry with modes := modes } r.offset) q (insert name (s.image.namesIn q)) := by
  obtain ⟨hlast, p, v, k, f, fs, hp, hh⟩ := newFile_housed h.toSound hpath hslot hc hneg
  obtain rfl := h.unique.named_eq hp hq
  have hname : ({ ownEntry (simplifyPath path) 0 .File f with modes := modes } : DirEntry).name.toStr = name :=
    (hh.name (by rw [hlast]; exact hnul)).trans hlast
  have hfile := fileEntry_file (simplifyPath path) f modes
  have hrel := hh.vacant.filled h.unique hh.target.free h.wf (hh.stored h.wf modes)
    (blocksFor_small hh.vacant.sound.wf.geometry (Nat.zero_le _)) (fun hd => absurd (hfile.symm.trans hd) (by decide))
    (by rw [hname]; exact name_not_listed h hq hpath.noDots hpath.pathNames hl)
  rwa [hname] at hrel

theorem create_relists (hw : WellFormed s) (h : Orderly s.load) (hq : s.load.image.Named dir q)
    (hpath : Spells path (dir ++ [name])) (hnul : (0 : UInt8) ∉ name) {modes : BitVec 32}
    (hrun : create path modes s = some (0, t)) (hslot : s.load.HasSlot path) :
    Relisted s.load t q (insert name (s.load.image.namesIn q)) := by
  rcases run_create hw (clean_of_noDots hw hpath.noDots) modes with ⟨k, -, hr⟩ | ⟨status, r, u, hl, hc, hr⟩
  · rw [hrun, Option.some.injEq, Prod.mk.injEq] at hr
    exact absurd hr.1 (by decide)
  · rw [hrun, Option.some.injEq] at hr
    split_ifs at hr with hneg
    · have hzero : 0 = r.status := congrArg Prod.fst hr
      omega
    · obtain rfl : t = u.storeEntry { r.entry with modes := modes } r.offset := congrArg Prod.snd hr
      exact created_relists h hq hpath hnul hl hslot hc hneg modes

theorem removed_relists (h : Orderly s) (hq : s.image.Named dir q) (hd : (s.entry q).isDirectory)
    (hpath : Spells path (dir ++ [name])) {k : ℕ} (hl : s.lookup path = .ok k)
    (hfile : (s.entry k).isDirectory = false) : Relisted s (s.removed k) q (s.image.namesIn q \ {name}) := by
  have hw := h.wf.image
  have hk := (lookup_named h.wf h.unique hpath.noDots).mp hl
  rw [hpath.pathNames] at hk
  obtain ⟨p, hp, hc, hname⟩ := hk.pop
  obtain rfl := h.unique.named_eq hp hq
  have hr := hw.child_ne_root hp.live hc
  have hleaf := Image.leaf_of_file (I := s.image) hfile
  have hfreed := removed_freed h.wf hk.live hr
  obtain ⟨hwf, hroot⟩ := removed_wellFormed h.wf h.root hk.live hfile hr
  have hstay : ∀ i, (s.entry i).isDirectory → i ≠ k := by
    rintro i hi rfl
    rw [hfile] at hi
    cases hi
  exact {
    orderly := ⟨⟨hwf, hfreed.tidy hw hk.live hr hleaf h.tidy, hroot⟩, hfreed.uniqueNames hw hk.live hr hleaf h.unique⟩
    named := fun _ i hi hid => hfreed.named hw hk.live hr hleaf hi (hstay i hid)
    directory := (congrArg DirEntry.isDirectory (hfreed.entry_live hw hp.live (hstay p hd))).trans hd
    names := by
      rw [hfreed.namesIn hw hk.live hr hleaf h.unique hp.live hc]
      exact congrArg (fun n => s.image.namesIn p \ {n}) hname }

theorem unlink_relists (hw : WellFormed s) (h : Orderly s.load) (hq : s.load.image.Named dir q)
    (hd : (s.load.entry q).isDirectory) (hpath : Spells path (dir ++ [name]))
    (hrun : unlink path s = some (0, t)) : Relisted s.load t q (s.load.image.namesIn q \ {name}) := by
  rw [run_unlink hw (opens_of_noDots hw hpath.noDots _), Option.some.injEq] at hrun
  cases hl : s.lookup path with
  | error status =>
    rw [hl] at hrun
    have hneg := lookup_neg hl
    have hzero : status = 0 := congrArg Prod.fst hrun
    omega
  | ok k =>
    rw [hl] at hrun
    dsimp only at hrun
    split_ifs at hrun with hdir
    · exact absurd (congrArg Prod.fst hrun) (show (-EISDIR : ℤ) ≠ 0 by decide)
    · obtain rfl : s.load.removed k = t := congrArg Prod.snd hrun
      exact removed_relists h hq hd hpath hl (Bool.eq_false_iff.mpr hdir)

end Steps

section Listing
variable {I : Image} {q : ℕ}

theorem slots_nodup (hw : I.WellFormed) (hq : I.Live q) : (I.slots q).Nodup := by
  rw [Image.slots, Image.slotsIn]
  refine List.Nodup.map_on (fun i hi j hj he => ?_) List.nodup_range
  exact Image.slotAt_inj hw.epb_pos (hw.owns q hq).nodup (hw.index_lt hq (List.mem_range.mp hi))
    (hw.index_lt hq (List.mem_range.mp hj)) he

def usedNames (I : Image) (q : ℕ) : List Str :=
  ((I.slots q).filter fun k => !I.free (I.entry k)).map fun k => (I.entry k).name.toStr

theorem mem_usedNames (hw : I.WellFormed) (hq : I.Live q) (hd : (I.entry q).isDirectory) {n : Str}
    (hn : n ≠ dotName) (hn' : n ≠ dotDotName) : n ∈ usedNames I q ↔ n ∈ I.namesIn q := by
  constructor
  · intro h
    obtain ⟨k, hk, rfl⟩ := List.mem_map.mp h
    obtain ⟨hk, hfree⟩ := List.mem_filter.mp hk
    refine ⟨k, ⟨hd, ?_, by simpa using hfree⟩, rfl⟩
    obtain ⟨i, hi, rfl⟩ := Image.mem_slotsIn.mp hk
    refine Image.mem_slotsIn_drop.mpr ⟨i, ?_, hi, rfl⟩
    by_contra hlt
    rcases hw.copy_name hq hd (not_le.mp hlt) with hcopy | hcopy
    · exact hn hcopy
    · exact hn' hcopy
  · rintro ⟨k, hk, rfl⟩
    refine List.mem_map.mpr ⟨k, List.mem_filter.mpr ⟨hk.mem_slots, ?_⟩, rfl⟩
    rw [hk.2.2]
    rfl

theorem count_usedNames (hw : I.WellFormed) (hu : I.UniqueNames) (hq : I.Live q) (hd : (I.entry q).isDirectory)
    {n : Str} (hn : n ≠ dotName) (hn' : n ≠ dotDotName) (h : n ∈ I.namesIn q) :
    (usedNames I q).count n = 1 := by
  have hcopies := List.take_append_drop (I.copies q) (I.slots q)
  have hnot : n ∉ (((I.slots q).take (I.copies q)).filter fun k => !I.free (I.entry k)).map
      fun k => (I.entry k).name.toStr := by
    rintro hm
    obtain ⟨k, hk, rfl⟩ := List.mem_map.mp hm
    obtain ⟨i, hi, hik⟩ := List.mem_take_iff_getElem.mp (List.mem_filter.mp hk).1
    have hlt : i < I.copies q := lt_of_lt_of_le hi (min_le_left _ _)
    have hslot : (I.slots q)[i] = I.slotAt (I.chain q) i := by simp [Image.slots, Image.slotsIn]
    rw [← hik, hslot] at hn hn'
    exact (hw.copy_name hq hd hlt).elim hn hn'
  have hnodup : ((((I.slots q).drop (I.copies q)).filter fun k => !I.free (I.entry k)).map
      fun k => (I.entry k).name.toStr).Nodup := by
    refine List.Nodup.map_on (fun k hk l hl he => ?_)
      (((slots_nodup hw hq).sublist (List.drop_sublist _ _)).filter _)
    have hchild : ∀ i ∈ ((I.slots q).drop (I.copies q)).filter fun k => !I.free (I.entry k), I.Child q i := by
      intro i hi
      obtain ⟨hi, hfree⟩ := List.mem_filter.mp hi
      exact ⟨hd, hi, by simpa using hfree⟩
    exact hu q k l hq (hchild k hk) (hchild l hl) he
  have hmem := (mem_usedNames hw hq hd hn hn').mpr h
  rw [usedNames, ← hcopies, List.filter_append, List.map_append] at hmem ⊢
  rw [List.count_append, List.count_eq_zero_of_not_mem hnot, Nat.zero_add]
  exact List.count_eq_one_of_mem hnodup ((List.mem_append.mp hmem).resolve_left hnot)

end Listing

section Readdir
variable {s : Fs}

theorem run_listEntries (l : List ℕ) (s : Fs) : listEntries (l.map fun k => (s.entry k, 320 * k)) s =
    some ((l.filter fun k => !s.free (s.entry k)).map fun k => ((s.entry k).name.toStr, 320 * k), s) := by
  induction l with
  | nil => rfl
  | cons k l ih =>
    rw [List.map_cons, listEntries, run_bind, run_isFree, Option.bind_some, run_bind, ih, Option.bind_some,
      run_pure]
    cases hf : s.free (s.entry k) <;> simp [hf]

/-- `readdir` lists `.` for a directory other than the root, and the slots in use. -/
theorem run_readdir (hw : WellFormed s) {path : Str} (hdot : NoDots path) {k : ℕ} (hk : s.lookup path = .ok k)
    (hd : (s.entry k).isDirectory) : readdir path s =
      some ((0, (if (s.entry k).start = s.superblock.startBlock then [] else [(dotName, 0)]) ++
        ((s.image.slots k).filter fun j => !s.free (s.entry j)).map fun j => ((s.entry j).name.toStr, 320 * j)),
        s.load) := by
  have hfind := run_find_clean hw (clean_of_noDots hw hdot)
  have hlive := lookup_live hw hdot hk
  have hr : s.load.image.Readable (s.entry k) := hw.image.readable hlive
  have hread := run_readDir hw.load.geometry (s.entry k) fun _ => hr
  have hlen : (s.entry k).len ≠ 0 := (hw.image.directory k hlive hd).1.ne'
  have hlist := run_listEntries (s.image.slots k) s.load
  have hdir : (Driver.found s [] (.ok k)).entry.isDirectory := hd
  rw [if_pos ⟨hlen, hd⟩] at hread
  unfold readdir
  rw [run_bind, hfind, Option.bind_some, hk, run_ite,
    if_neg (show ¬ (Driver.found s [] (.ok k)).status < 0 from lt_irrefl _), run_ite, if_neg (not_not.mpr hdir),
    run_bind, run_get, Option.bind_some, run_bind]
  change (readDir (s.entry k) s.load).bind _ = _
  rw [hread, Option.bind_some, run_ite, if_neg (lt_irrefl _), run_bind]
  change (listEntries ((s.image.slots k).map fun k => (s.load.entry k, 320 * k)) s.load).bind _ = _
  rw [hlist, Option.bind_some, run_pure]
  rfl

end Readdir

/-- The directory known as `path` shows these names: each is listed once, and found, and no other name is listed
but `.` and `..`. -/
structure Shows (s : Fs) (path : Str) (names : Set Str) : Prop where
  listed : ∃ calls t, readdir path s = some ((0, calls), t) ∧ ∀ n, n ≠ dotName → n ≠ dotDotName →
    (n ∈ names → (calls.map Prod.fst).count n = 1) ∧ (n ∉ names → n ∉ calls.map Prod.fst)
  found : ∀ n ∈ names, ∀ path', NoDots path' → pathNames path' = pathNames path ++ [n] →
    ∃ r, s.Finds path' r ∧ r.status = 0 ∧ r.entry.name.toStr = n

theorem shows_names {s : Fs} (hw : WellFormed s) (hu : s.image.UniqueNames) {path : Str}
    (hdot : NoDots path) {q : ℕ}
    (hq : s.image.Named (pathNames path) q) (hd : (s.entry q).isDirectory) :
    Shows s path (s.image.namesIn q) where
  listed := by
    have hl := (lookup_named hw hu hdot).mpr hq
    refine ⟨_, _, run_readdir hw hdot hl hd, fun n hn hn' => ?_⟩
    have hself : n ∉ ((if (s.entry q).start =
        s.superblock.startBlock then [] else [(dotName, 0)]).map Prod.fst : List Str) := by
      split_ifs
      · exact List.not_mem_nil
      · exact fun h => hn (List.mem_singleton.mp h)
    have hnames : ((((s.image.slots q).filter fun j => !s.free (s.entry j)).map
        fun j => ((s.entry j).name.toStr, 320 * j)).map Prod.fst) = usedNames s.image q := List.map_map
    rw [List.map_append, hnames]
    constructor
    · intro h
      rw [List.count_append, List.count_eq_zero_of_not_mem hself, Nat.zero_add]
      exact count_usedNames hw.image hu hq.live hd hn hn' h
    · intro h hm
      exact h ((mem_usedNames hw.image hq.live hd hn hn').mp ((List.mem_append.mp hm).resolve_left hself))
  found := by
    rintro n ⟨k, hk, rfl⟩ path' hdot' hpath'
    have hl := (lookup_named hw hu hdot').mpr (hpath' ▸ hq.child hk)
    refine ⟨_, finds_lookup hw hdot', ?_⟩
    rw [hl]
    exact ⟨rfl, rfl⟩

inductive NameCall
  | create (name path : Str) (modes : BitVec 32)
  | unlink (name path : Str)

namespace NameCall

def name : NameCall → Str
  | create name _ _ => name
  | unlink name _ => name

def path : NameCall → Str
  | create _ path _ => path
  | unlink _ path => path

def call : NameCall → Call
  | create _ path modes => .create path modes
  | unlink _ path => .unlink path

def apply (names : Set Str) : NameCall → Set Str
  | create name _ _ => insert name names
  | unlink name _ => names \ {name}

def after (s : Fs) (c : NameCall) : Fs := c.call.after s

structure Succeeds (dir : List Str) (s : Fs) (c : NameCall) : Prop where
  spells : Spells c.path (dir ++ [c.name])
  text : (0 : UInt8) ∉ c.name
  run : ∃ t, c.call.run s = some (0, t)

/-- A `create` finds a freed slot in the directory, or room behind its last entry. -/
def Fits (s : Fs) : NameCall → Prop
  | create _ path _ => s.HasSlot path
  | unlink _ _ => True

end NameCall

/-- The file system, once its root is loaded, is orderly, and the directory lists the names of the set. -/
structure Keeps (dir : List Str) (q : ℕ) (s : Fs) (names : Set Str) : Prop where
  wf : WellFormed s
  orderly : Orderly s.load
  named : s.image.Named dir q
  directory : (s.entry q).isDirectory
  names : s.image.namesIn q = names

theorem Relisted.keeps {s t : Fs} {dir : List Str} {q : ℕ} {names names' : Set Str} (h : Keeps dir q s names')
    (ht : Relisted s.load t q names) : Keeps dir q t names where
  wf := ht.orderly.wf
  orderly := .of_load ht.orderly.wf ht.orderly.tidy ht.orderly.unique
  named := ht.named dir q h.named h.directory
  directory := ht.directory
  names := ht.names

theorem Keeps.after {s : Fs} {dir : List Str} {q : ℕ} {names : Set Str} (h : Keeps dir q s names) {c : NameCall}
    (hc : c.Succeeds dir s) (hfits : c.Fits s) : Keeps dir q (c.after s) (c.apply names) := by
  obtain ⟨t, hrun⟩ := hc.run
  have hspells := hc.spells
  have htext := hc.text
  rw [NameCall.after, after_eq hrun, ← h.names]
  cases c with
  | create name path modes => exact (create_relists h.wf h.orderly h.named hspells htext hrun hfits).keeps h
  | unlink name path => exact (unlink_relists h.wf h.orderly h.named h.directory hspells hrun).keeps h

/-- Through every run of successful calls of `create` and `unlink` that needs no further block for the directory,
it shows the names created and not removed since. -/
theorem shows_names_created (s : Fs) (hw : WellFormed s) (htidy : s.image.Tidy) (hunique : s.image.UniqueNames)
    (path : Str) (hdot : NoDots path) (q : ℕ) (hq : s.image.Named (pathNames path) q)
    (hd : (s.entry q).isDirectory) (calls : List NameCall)
    (hcalls : Runs.Throughout NameCall.after (NameCall.Succeeds (pathNames path)) s calls)
    (hfits : Runs.Throughout NameCall.after NameCall.Fits s calls) :
    ∀ pre, pre <+: calls →
      Shows (Runs.after NameCall.after s pre) path (Runs.after NameCall.apply (s.image.namesIn q) pre) := by
  intro pre hpre
  have hkeeps : Keeps (pathNames path) q s (s.image.namesIn q) :=
    ⟨hw, .of_load hw htidy hunique, hq, hd, rfl⟩
  have hstep : ∀ s names c, Keeps (pathNames path) q s names → NameCall.Succeeds (pathNames path) s c →
      NameCall.Fits s c → Keeps (pathNames path) q (NameCall.after s c) (NameCall.apply names c) :=
    fun _ _ _ h hc hf => h.after hc hf
  have hend := Runs.related_of_throughout hkeeps hstep hcalls hfits pre hpre
  have hshows := shows_names hend.wf hend.orderly.unique hdot hend.named hend.directory
  rwa [hend.names] at hshows

theorem create_stands {s : Fs} (hw : WellFormed s) {path : Str} (hc : s.Clean path) {status : ℤ}
    (hl : s.lookup path = .error status) {p : ℕ} (hp : s.lookupParent (simplifyPath path) = .ok p)
    (hd : (s.entry p).isDirectory) (hshort : (lastName (simplifyPath path)).length ≤ THORNFAT_PATH_MAX)
    (henough : s.load.asks p 0 ≤ s.load.freeList.length) (modes : BitVec 32) : ∃ r u,
      Stands s.load p 0 ((newEntry 0 .File none).setName (lastName (simplifyPath path))) r u ∧
      create path modes s = some (0, u.storeEntry { r.entry with modes := modes } r.offset) := by
  obtain ⟨r, u, hrun, hyes, -⟩ := newFile_ends hw.load (clean_simplified hw.load path) hp hd hshort 0 .File none
  have hstands := hyes henough
  refine ⟨r, u, hstands, ?_⟩
  have hfind := run_find_clean hw hc
  have hnot : ¬ 0 ≤ (Driver.found s [] (.error status)).status := not_le.mpr (lookup_neg hl)
  unfold create
  rw [run_bind, hfind, hl, Option.bind_some, run_ite, if_neg hnot, run_bind, hrun, Option.bind_some, run_ite,
    if_neg (by rw [hstands.status]; exact lt_irrefl _), run_bind, run_writeEntry, Option.bind_some, run_pure]

section Short
variable {s t : Fs} {p f g : ℕ} {fs l : List ℕ} {own e : DirEntry}

/-- What `create` leaves of a full directory: it is longer than its chain, and cannot be read. -/
theorem expanded_short (h : Orderly s) (hp : s.image.Live p) (hd : (s.entry p).isDirectory)
    (hfull : s.FullDir p)
    (hfree : s.freeList = f :: g :: fs) (hl : l ⊆ fs) (ho : own.start = g) (he : e.start = g)
    (ht : Linked ((s.backed p f).entered p (f * s.image.epb) own true true) t g l) :
    SameFrame s (t.storeEntry e (320 * (f * s.image.epb))) ∧
      (t.storeEntry e (320 * (f * s.image.epb))).root =
        (t.storeEntry e (320 * (f * s.image.epb))).entry (t.storeEntry e (320 * (f * s.image.epb))).image.rootSlot ∧
      ((t.storeEntry e (320 * (f * s.image.epb))).entry p).isDirectory ∧
      readDir ((t.storeEntry e (320 * (f * s.image.epb))).entry p) (t.storeEntry e (320 * (f * s.image.epb))) =
        some (⟨-EINVAL, [], none⟩, t.storeEntry e (320 * (f * s.image.epb))) := by
  have hw := h.wf
  have hg := hw.geometry
  have hfm : f ∈ s.freeList := hfree ▸ List.mem_cons_self
  have hgm : g ∈ s.freeList := hfree ▸ List.mem_cons_of_mem _ List.mem_cons_self
  have hf := (mem_freeList.mp hfm).1
  have hbframe := SameFrame.backed s p f
  have hbg := hbframe.geometry hg
  have hframe := (hbframe.trans (.entered _ p (f * s.image.epb) own true true)).trans ht.table.frame
  have hwframe := hframe.trans (.storeEntry _ e (320 * (f * s.image.epb)))
  have htakes := block_takes hw hfm
  have hbehind := htakes.behind
  have hslot := hw.image.live_data hp
  have hbslot := hbframe.isSlot.mpr hslot
  have hbtakes := hbframe.takes htakes
  have haframe := (OnlyTable.allocated hg hf).frame
  have hlast := chain_last_data hw hp
  obtain ⟨o, ho', -, hpo⟩ := hw.image.live_mem hp
  have hpf : p ≠ f * s.image.epb := by
    rintro rfl
    refine hw.free_apart ho' hfm ?_
    have hmem := hw.image.slot_mem ho' hpo
    rwa [show (f * s.image.epb) / s.image.epb = f from Nat.mul_div_cancel _ hg.epb_pos] at hmem
  have hentry : ∀ i, s.IsSlot i → i ≠ f * s.image.epb →
      (t.storeEntry e (320 * (f * s.image.epb))).entry i =
        ((s.backed p f).entered p (f * s.image.epb) own true true).entry i := by
    intro i hi hif
    rw [stored_entry (hframe.geometry hg) (hframe.takes htakes), if_neg hif,
      ht.table.entry ((hbframe.trans (.entered _ p _ own true true)).geometry hg)
        ((hbframe.trans (.entered _ p _ own true true)).isSlot.mpr hi)]
  have hparent : (t.storeEntry e (320 * (f * s.image.epb))).entry p = grownEntry (s.entry p) true := by
    rw [hentry p hslot hpf, grown_entry hbg hbslot hbtakes, if_pos rfl, backed_entry hw hf hslot]
  have hcell : ∀ b ∈ s.image.chain p, (t.storeEntry e (320 * (f * s.image.epb))).fat b = s.fat b := by
    intro b hb
    have hblt := chain_lt hw hp b hb
    have hbf : b ≠ f := fun h => hw.free_apart hp hfm (h ▸ hb)
    have hbl : b ∉ g :: l := by
      intro hin
      refine hw.free_apart hp ?_ hb
      rcases List.mem_cons.mp hin with rfl | hin
      · exact hgm
      · exact hfree ▸ List.mem_cons_of_mem _ (List.mem_cons_of_mem _ (hl hin))
    have heframe := hbframe.trans (.entered _ p (f * s.image.epb) own true true)
    rw [storeEntry_fat (hframe.geometry hg) (hframe.isSlot.mpr htakes.slot) e (hframe.blockCount ▸ hblt),
      ht.others b (heframe.blockCount ▸ hblt) hbl, entered_fat hbg hbslot hbtakes true (hbframe.blockCount ▸ hblt),
      backed_eq, addFree_fat, putFAT_block_fat (haframe.geometry hg) (haframe.blockCount ▸ hf)
        (haframe.blockCount ▸ hblt) (haframe.blockCount ▸ hlast.2), if_neg hbf, allocated_fat hg hf hblt, if_neg hbf]
  have howns : (t.storeEntry e (320 * (f * s.image.epb))).image.Owns
      ((t.storeEntry e (320 * (f * s.image.epb))).entry p) (s.image.chain p) := by
    refine hwframe.shape.owns (hw.image.owns p hp) ?_ hcell
    rw [hparent, grownEntry_start]
    rfl
  have hlong : (s.image.chain p).length * (t.storeEntry e (320 * (f * s.image.epb))).bs <
      ((t.storeEntry e (320 * (f * s.image.epb))).entry p).len := by
    rw [hparent, hwframe.bs]
    exact grown_overfull hw hp hd hfull
  have hdir : ((t.storeEntry e (320 * (f * s.image.epb))).entry p).isDirectory := by
    rw [hparent]
    exact hd
  refine ⟨hwframe, ?_, hdir, run_readDir_short (hwframe.geometry hg) howns hdir hlong⟩
  have hbroot : (s.backed p f).root = (s.backed p f).entry (s.backed p f).image.rootSlot := by
    rw [hbframe.rootSlot, backed_entry hw hf (rootSlot_isSlot hw), ← h.root]
    rfl
  have hbstart : ((s.backed p f).entry (s.backed p f).image.rootSlot).start =
      (s.backed p f).superblock.startBlock := by
    rw [hbframe.rootSlot, backed_entry hw hf (rootSlot_isSlot hw), hbframe.superblock]
    exact entry_start_root hw
  have hbp : p = (s.backed p f).image.rootSlot ∨
      ((s.backed p f).entry p).start ≠ (s.backed p f).superblock.startBlock := by
    rw [hbframe.rootSlot, backed_entry hw hf hslot, hbframe.superblock]
    exact Decidable.or_iff_not_imp_left.mpr fun hpr => live_start hw hp hpr
  have hgrown := grown_root hbg hbroot hbstart hbslot hbp hbtakes
    (by rw [hbframe.superblock]; exact free_start hw hgm ho)
  rw [stored_root (hframe.geometry hg) (by rw [hframe.superblock]; exact free_start hw hgm he), ht.table.root,
    hgrown, (hbframe.trans (.entered _ p _ own true true)).rootSlot, hwframe.rootSlot,
    hentry _ (rootSlot_isSlot hw) (by omega)]

theorem run_readdir_short (hg : Geometry s) (hroot : s.root = s.entry s.image.rootSlot)
    (hd : (s.entry s.image.rootSlot).isDirectory)
    (h : readDir (s.entry s.image.rootSlot) s = some (⟨-EINVAL, [], none⟩, s)) :
    ∃ calls, readdir [slash] s = some ((-EINVAL, calls), s) := by
  have hload : s.load = s := by rw [Driver.load, ← hroot]
  have hfind := run_find_synced hg (fun _ => hroot) [slash] trivial
  have hl : s.lookup [slash] = .ok s.image.rootSlot := rfl
  have hdir : (Driver.found s [] (.ok s.image.rootSlot)).entry.isDirectory := hd
  rw [hl, hload] at hfind
  unfold readdir
  rw [run_bind, hfind, Option.bind_some, run_ite,
    if_neg (show ¬ (Driver.found s [] (.ok s.image.rootSlot)).status < 0 from lt_irrefl _), run_ite,
    if_neg (not_not.mpr hdir), run_bind, run_get, Option.bind_some, run_bind]
  change ∃ calls, (readDir (s.entry s.image.rootSlot) s).bind _ = _
  rw [h, Option.bind_some, run_ite, if_pos (show (-EINVAL : ℤ) < 0 by decide), run_pure]
  exact ⟨_, rfl⟩

theorem stands_hides (h : Orderly s) (hfull : s.FullDir s.image.rootSlot)
    (hreuses : ¬ s.Reuses s.image.rootSlot)
    {newfile : DirEntry} {r : NewFileResult} (hstands : Stands s s.image.rootSlot 0 newfile r t)
    (modes : BitVec 32)
    (names : Set Str) : ¬ Shows (t.storeEntry { r.entry with modes := modes } r.offset) [slash] names := by
  have hw := h.wf
  have hlive : s.image.Live s.image.rootSlot := .root
  cases hstands with
  | recycled hfree hk =>
    have hnone := (freedSlot_reuses hw hlive hfree).mpr hreuses
    rw [hk] at hnone
    cases hnone
  | appended _ _ hroom => exact absurd hfull hroom
  | @expanded f g fs t hfree _ _ ht =>
    have hlt := (mem_freeList.mp (hfree ▸ List.mem_cons_of_mem _ List.mem_cons_self : g ∈ s.freeList)).1
    have hstart : (newfile.setStart g).start = g := by
      rw [DirEntry.setStart_start, hw.geometry.toInt32_block hlt]
    have hstart' : ({ newfile.setStart g with modes := modes } : DirEntry).start = g := hstart
    obtain ⟨hframe, hroot, hdir, hshort⟩ := expanded_short h hlive hw.image.root_directory hfull hfree
      (List.take_subset _ _) hstart hstart' ht
    rw [← hframe.rootSlot] at hdir hshort
    obtain ⟨calls, hrun⟩ := run_readdir_short (hframe.geometry hw.geometry) hroot hdir hshort
    rintro ⟨⟨calls', v, hlist, -⟩, -⟩
    have hsame := hrun.symm.trans hlist
    rw [Option.some.injEq, Prod.mk.injEq, Prod.mk.injEq] at hsame
    exact absurd hsame.1.1 (by decide)

end Short

section Sample
open FatSample

theorem spells_letter {c : UInt8} (hc : c ≠ slash ∧ c ≠ 46) : Spells [slash, c] [[c]] where
  nonempty := List.cons_ne_nil _ _
  plain name h := by
    rw [List.mem_singleton.mp h]
    obtain ⟨hslash, hdot⟩ := hc
    refine ⟨List.cons_ne_nil _ _, fun he => hdot (List.cons.inj he).1, fun he => hdot (List.cons.inj he).1,
      fun hm => ?_⟩
    exact hslash (List.mem_singleton.mp hm).symm
  text := ⟨[slash], [], .inr rfl, .inl rfl, rfl⟩

theorem pathX_spells : Spells pathX [[120]] := spells_letter (by decide)

theorem slash_named {s : Fs} (hr : s.image.rootSlot = 4) : s.image.Named (pathNames [slash]) 4 := hr ▸ .root

theorem slash_noDots : NoDots [slash] := by
  unfold NoDots
  decide

theorem pathX_simplified : simplifyPath pathX = pathX := by decide

def pathY : Str := [slash, 121]

def nameCalls : List NameCall := [.create [120] pathX 0, .unlink nameF pathF, .create [121] pathY 0]

theorem nameCalls_succeed : Runs.Throughout NameCall.after (NameCall.Succeeds (pathNames [slash])) disk nameCalls := by
  have hreturns : ∀ {r : Option (ℤ × Fs)}, r.map Prod.fst = some 0 → ∃ t, r = some (0, t) := by
    intro r h
    obtain ⟨⟨status, t⟩, hr, rfl⟩ := Option.map_eq_some_iff.mp h
    exact ⟨t, hr⟩
  have hfirst : (create pathX 0 disk).map Prod.fst = some 0 := by decide +kernel
  have hsecond : (unlink pathF (NameCall.after disk (.create [120] pathX 0))).map Prod.fst = some 0 := by
    decide +kernel
  have hthird : (create pathY 0 (NameCall.after (NameCall.after disk (.create [120] pathX 0))
      (.unlink nameF pathF))).map Prod.fst = some 0 := by
    decide +kernel
  exact Runs.throughout_cons.mpr ⟨⟨pathX_spells, by decide, hreturns hfirst⟩,
    Runs.throughout_cons.mpr ⟨⟨spells_letter (by decide), by decide, hreturns hsecond⟩,
    Runs.throughout_cons.mpr ⟨⟨spells_letter (by decide), by decide, hreturns hthird⟩, Runs.throughout_nil⟩⟩⟩

theorem nameCalls_fit : Runs.Throughout NameCall.after NameCall.Fits disk nameCalls := by
  have hfirst : disk.lookupParent pathX = .ok 4 ∧ disk.freedSlot 4 ≠ none := by decide +kernel
  have hthird : (NameCall.after (NameCall.after disk (.create [120] pathX 0)) (.unlink nameF pathF)).lookupParent
        pathY = .ok 4 ∧
      (NameCall.after (NameCall.after disk (.create [120] pathX 0)) (.unlink nameF pathF)).freedSlot 4 ≠ none := by
    decide +kernel
  exact Runs.throughout_cons.mpr ⟨⟨4, hfirst.1, .inl hfirst.2⟩, Runs.throughout_cons.mpr ⟨trivial,
    Runs.throughout_cons.mpr ⟨⟨4, hthird.1, .inl hthird.2⟩, Runs.throughout_nil⟩⟩⟩

theorem shows_names_created_y : Shows (Runs.after NameCall.after disk nameCalls) [slash]
    (Runs.after NameCall.apply (disk.image.namesIn 4) nameCalls) :=
  shows_names_created disk disk_wellFormed disk_tidy disk_unique [slash] slash_noDots 4
    (slash_named disk_agree.rootSlot)
    (by rw [disk_live_entry (by decide)]; decide) nameCalls nameCalls_succeed nameCalls_fit _ List.prefix_rfl

theorem emptyDisk_full : emptyDisk.FullDir emptyDisk.image.rootSlot := by
  rw [Driver.FullDir, emptyDisk_bare.len, emptyDisk_frame.bs]
  exact show 640 ∣ 640 from dvd_rfl

theorem emptyDisk_reuses : ¬ emptyDisk.Reuses emptyDisk.image.rootSlot := by
  rintro ⟨k, hk, -⟩
  exact emptyDisk_bare.not_child .root hk

/-- The first file created in the root of an empty disk of two entries a block: the root cannot be listed any more. -/
theorem first_create_hides :
    WellFormed emptyDisk ∧ emptyDisk.image.Tidy ∧ emptyDisk.image.UniqueNames ∧ emptyDisk.freeList.length = 9 ∧
    emptyDisk.image.Named (pathNames [slash]) 4 ∧ (emptyDisk.entry 4).isDirectory ∧
    NameCall.Succeeds (pathNames [slash]) emptyDisk (.create [120] pathX 0) ∧
    ¬ Shows (NameCall.after emptyDisk (.create [120] pathX 0)) [slash]
      (NameCall.apply (emptyDisk.image.namesIn 4) (.create [120] pathX 0)) := by
  have hbare := emptyDisk_bare
  have hw := hbare.wellFormed
  have hd : (emptyDisk.entry 4).isDirectory := emptyDisk_slot ▸ hbare.directory
  have hl : emptyDisk.lookup pathX = .error (-ENOENT) := hbare.lookup_missing (by decide) pathX_noDots
  have hparent : emptyDisk.lookupParent (simplifyPath pathX) = .ok emptyDisk.image.rootSlot := by
    rw [pathX_simplified]
    rfl
  have hasks : emptyDisk.load.asks emptyDisk.image.rootSlot 0 = 3 :=
    (if_neg emptyDisk_reuses).trans ((if_pos emptyDisk_full).trans (by decide))
  have hfree : emptyDisk.load.freeList = [3, 4, 5, 6, 7, 8, 9, 10, 11] := emptyDisk_freeList
  obtain ⟨r, u, hstands, hrun⟩ := create_stands hw (clean_of_noDots hw pathX_noDots) hl hparent hbare.directory
    (by decide) (by rw [hasks, hfree]; decide) 0
  have hsucceeds : NameCall.Succeeds (pathNames [slash]) emptyDisk (.create [120] pathX 0) :=
    ⟨pathX_spells, by decide, _, hrun⟩
  refine ⟨hw, hbare.tidy, hbare.unique, congrArg List.length emptyDisk_freeList, slash_named emptyDisk_slot, hd,
    hsucceeds, ?_⟩
  have hafter : NameCall.after emptyDisk (.create [120] pathX 0) =
      u.storeEntry { r.entry with modes := 0 } r.offset :=
    after_eq hrun
  rw [hafter]
  exact stands_hides (.of_load hw hbare.tidy hbare.unique) emptyDisk_full emptyDisk_reuses hstands 0 _

end Sample

end Thorn.FatDriver

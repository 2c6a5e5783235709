import Thorn.RenameEdits

set_option autoImplicit false

namespace Thorn.FatDriver
open ByteStore Paths FatTypes FatOperations FatImage LinkedChain

def Driver.Finds (s : Fs) (path : Str) (r : FindResult) : Prop := ∃ t, find path false s = some (r, t)

/-- The same entry in the same place, or nothing twice; a directory may have another length. -/
structure FoundAlike (r r' : FindResult) : Prop where
  status : r'.status = r.status
  offset : r'.offset = r.offset
  entry : r'.entry = r.entry ∨ r.entry.isDirectory ∧ ∃ n, r'.entry = r.entry.setLength n

/-- The entry in slot `k`, known as `srcpath`, is found as `destpath` instead. -/
structure EntryMoved (s t : Fs) (srcpath destpath : Str) (k : ℕ) : Prop where
  there : ∃ o, t.Finds destpath ⟨0, (s.entry k).setName (lastName destpath), o, []⟩
  content : t.content ((s.entry k).setName (lastName destpath)) = s.content (s.entry k)
  gone : ∃ r, t.Finds srcpath r ∧ r.status < 0
  released : ∀ d, s.lookup destpath = .ok d → ∀ b ∈ s.image.chain d, t.fat b = 0
  others : ∀ path, NoDots path → ¬ pathNames srcpath <+: pathNames path → ¬ pathNames destpath <+: pathNames path →
    ∃ r r', s.Finds path r ∧ t.Finds path r' ∧ FoundAlike r r' ∧
      (r.entry.isDirectory = false → t.content r.entry = s.content r.entry)

structure RenamesOne (s : Fs) (srcpath destpath : Str) (status : ℤ) (t : Fs) : Prop where
  refused : ∀ k, s.lookup srcpath = .ok k → (k = s.image.rootSlot ∨ (s.entry k).isDirectory ∧
    pathNames srcpath <+: pathNames destpath ∧ pathNames srcpath ≠ pathNames destpath) → status < 0
  unchanged : status = 0 → ∀ k, s.lookup srcpath = .ok k → s.lookup destpath = .ok k →
    ∀ i < s.partition.length, t.data i = s.data i
  moved : status = 0 → ∀ k, s.lookup srcpath = .ok k → s.lookup destpath ≠ .ok k → EntryMoved s t srcpath destpath k

def Driver.HasSlot (s : Fs) (path : Str) : Prop :=
  ∃ p, s.lookupParent path = .ok p ∧ (s.freedSlot p ≠ none ∨ ¬ s.FullDir p)

/-- There is nothing to rename or no way to, or the new path does not go on behind the old one, its
last name fits into an entry, and the new parent needs no further block. -/
def Driver.MovesCleanly (s : Fs) (srcpath destpath : Str) : Prop :=
  ∀ k, s.lookup srcpath = .ok k → s.TakesName destpath →
  ¬ pathNames srcpath <+: pathNames destpath ∧ (lastName destpath).length ≤ THORNFAT_PATH_MAX ∧
    (s.lookup destpath = .error (-ENOENT) → s.HasSlot destpath)

theorem pathNames_last {path : Str} (h : pathNames path ≠ []) :
    pathNames path = (pathNames path).dropLast ++ [lastName path] := by
  have hlast := List.dropLast_append_getLast h
  rw [lastName, List.getLastD_eq_getLast?, List.getLast?_eq_getLast_of_ne_nil h]
  exact hlast.symm

theorem content_same {s t : Fs} {e e' : DirEntry} {c : List ℕ} (hbs : t.bs = s.bs) (ho : s.image.Owns e c)
    (ho' : t.image.Owns e' c) (hlen : e'.len = e.len) (hblock : ∀ b ∈ c, t.block b = s.block b) :
    t.content e' = s.content e := by
  have hgather := gather_congr s.data t.data s.bs c fun b hb => by
    have h := hblock b hb
    rwa [Driver.block, Driver.block, show t.superblock.blockSize = s.superblock.blockSize from hbs] at h
  rw [Driver.content, Driver.content, ho'.chainOf_eq, ho.chainOf_eq, hlen, hbs, hgather]

theorem slot_apart {I : Image} (hw : I.WellFormed) {q i x : ℕ} (hq : I.Live q) (hx : x ∈ I.slots q)
    (hi : I.Live i) (hne : q ≠ i) : ∀ b ∈ I.chain i, x / I.epb ≠ b := by
  rintro b hb rfl
  exact hw.disjoint q i hq hi hne (hw.slot_mem hq hx) hb

/-- A file system with a vacant slot for an entry that is to be moved there under a name nothing has,
and the state `v` in which `rename` writes it. -/
structure Ready (s v : Fs) (srcpath destpath : Str) (p j k : ℕ) : Prop where
  wf : WellFormed s
  tidy : s.image.Tidy
  unique : s.image.UniqueNames
  root : s.root = s.entry s.image.rootSlot
  srcDots : NoDots srcpath
  destDots : NoDots destpath
  source : s.lookup srcpath = .ok k
  absent : s.lookup destpath = .error (-ENOENT)
  parent : s.lookupParent destpath = .ok p
  directory : (s.entry p).isDirectory
  slot : j ∈ (s.image.slots p).drop (s.image.copies p)
  vacant : s.image.free (s.entry j)
  only : OnlySlot s v j
  outside : ¬ pathNames srcpath <+: pathNames destpath
  above : ¬ pathNames destpath <+: pathNames srcpath

namespace Ready
variable {s v : Fs} {srcpath destpath : Str} {p j k : ℕ} {name : Str}

theorem dest_ne_nil (h : Ready s v srcpath destpath p j k) : pathNames destpath ≠ [] := fun he =>
  h.above (he ▸ List.nil_prefix)

theorem dest_eq (h : Ready s v srcpath destpath p j k) :
    pathNames destpath = (pathNames destpath).dropLast ++ [lastName destpath] := pathNames_last h.dest_ne_nil

theorem source_named (h : Ready s v srcpath destpath p j k) : s.image.Named (pathNames srcpath) k := by
  have hn := Image.Named.root.resolve (h.wf.image.avoidsCopies .root h.srcDots.1 h.srcDots.2) h.source
  rwa [List.nil_append] at hn

theorem dest_dotless (h : Ready s v srcpath destpath p j k) : Image.Dotless (pathNames destpath) := h.destDots

theorem init_dotless (h : Ready s v srcpath destpath p j k) : Image.Dotless (pathNames destpath).dropLast := by
  have hd := h.dest_dotless
  rw [h.dest_eq] at hd
  exact hd.take

theorem parent_named (h : Ready s v srcpath destpath p j k) :
    s.image.Named (pathNames destpath).dropLast p := by
  have hn :=
    Image.Named.root.walkDirs (h.wf.image.avoidsCopies .root h.init_dotless.1 h.init_dotless.2) h.parent
  rwa [List.nil_append] at hn

theorem source_live (h : Ready s v srcpath destpath p j k) : s.image.Live k := h.source_named.live

theorem parent_live (h : Ready s v srcpath destpath p j k) : s.image.Live p := h.parent_named.live

theorem source_ne_root (h : Ready s v srcpath destpath p j k) : k ≠ s.image.rootSlot := by
  rintro rfl
  have hn := h.source_named.unique h.wf.image .root
  exact h.outside (hn ▸ List.nil_prefix)

theorem clear (h : Ready s v srcpath destpath p j k) {names : List Str} (hno : ¬ pathNames srcpath <+: names) :
    s.image.Clear k names := fun _ hpre hn =>
  hno ((hn.unique h.wf.image h.source_named) ▸ hpre)

theorem clear_parent (h : Ready s v srcpath destpath p j k) : s.image.Clear k (pathNames destpath).dropLast :=
  h.clear fun hpre => h.outside (hpre.trans (List.dropLast_prefix _))

theorem edit (h : Ready s v srcpath destpath p j k) (name : Str) :
    s.image.Moved (v.moved ((s.entry k).setName name) (320 * j) k).image p j k :=
  moved_edit h.wf h.tidy h.parent_live h.slot h.vacant h.only h.source_live rfl rfl rfl

theorem frame (h : Ready s v srcpath destpath p j k) (name : Str) :
    SameFrame s (v.moved ((s.entry k).setName name) (320 * j) k) := h.only.frame.trans (moved_frame _ _ _ _)

theorem entry_moved (h : Ready s v srcpath destpath p j k) (name : Str) (i : ℕ) :
    (v.moved ((s.entry k).setName name) (320 * j) k).entry i =
      if i = k then zeroEntry else if i = j then (s.entry k).setName name else s.entry i := by
  have hg := h.only.frame.geometry h.wf.geometry
  rw [moved_entry hg (h.only.frame.isSlot.mpr
    (h.wf.image.slot_data h.parent_live (List.mem_of_mem_drop h.slot)))
    (h.only.frame.isSlot.mpr (h.wf.image.live_data h.source_live))]
  split_ifs with h₁ h₂
  · rfl
  · rfl
  · exact h.only.entry i h₂

theorem moved_self (h : Ready s v srcpath destpath p j k) (name : Str) :
    (v.moved ((s.entry k).setName name) (320 * j) k).entry j = (s.entry k).setName name := by
  have hne := (h.edit name).apart h.wf.image h.source_live
  rw [h.entry_moved, if_neg hne, if_pos rfl]

theorem wellFormed (h : Ready s v srcpath destpath p j k) (name : Str) :
    WellFormed (v.moved ((s.entry k).setName name) (320 * j) k) where
  geometry := (h.frame name).geometry h.wf.geometry
  image := ((h.edit name).rearranged h.wf.image h.parent_named h.directory h.source_live h.source_ne_root
    h.clear_parent).wellFormed h.wf.image
  root _ := by
    have hj : s.image.rootSlot ≠ j := fun he => (h.edit name).vacant_not_live h.wf.image (he ▸ .root)
    rw [(h.frame name).rootSlot, h.entry_moved, if_neg h.source_ne_root.symm, if_neg hj, moved_root,
      h.only.root, h.root]

theorem name_new (h : Ready s v srcpath destpath p j k) {i : ℕ} (hi : s.image.Child p i) :
    (s.entry i).name.toStr ≠ lastName destpath := by
  intro he
  have hw : s.image.Walkable p := (h.wf.image.walkable_iff h.parent_live).mpr h.directory
  have hdot := h.dest_dotless
  rw [h.dest_eq] at hdot
  have hfind := (h.wf.image.findSlot_iff (h.unique.oneNamed h.parent_live _) h.parent_live hw
    (hdot.last List.prefix_rfl)).mpr ⟨hi, he⟩
  have habsent := h.absent
  rw [Driver.lookup, h.dest_eq, Image.resolve_concat] at habsent
  have hparent := h.parent
  rw [Driver.lookupParent] at hparent
  rw [hparent, Image.lookIn, if_pos hw, hfind] at habsent
  cases habsent

theorem lookup_other (h : Ready s v srcpath destpath p j k) (name : Str) {path : Str} (hdot : NoDots path)
    (hsrc : ¬ pathNames srcpath <+: pathNames path)
    (hdest : ¬ (pathNames destpath).dropLast ++ [((s.entry k).setName name).name.toStr] <+: pathNames path) :
    (v.moved ((s.entry k).setName name) (320 * j) k).lookup path = s.lookup path := by
  have hfinds := (h.edit name).findsAlike h.wf.image h.parent_named h.directory h.source_live h.source_ne_root
    h.clear_parent h.unique hdot (h.clear hsrc) (by
      change ¬ (pathNames destpath).dropLast ++
        [((v.moved ((s.entry k).setName name) (320 * j) k).entry j).name.toStr] <+: _
      rw [h.moved_self]
      exact hdest)
  rw [Driver.lookup, Driver.lookup, (h.frame name).rootSlot]
  exact hfinds.resolve h.wf.image hdot

theorem lookup_source (h : Ready s v srcpath destpath p j k) (name : Str)
    (hdest : ¬ (pathNames destpath).dropLast ++ [((s.entry k).setName name).name.toStr] <+: pathNames srcpath) :
    (v.moved ((s.entry k).setName name) (320 * j) k).lookup srcpath = .error (-ENOENT) := by
  rw [Driver.lookup, (h.frame name).rootSlot]
  apply (h.edit name).resolve_origin h.wf.image h.parent_named h.directory h.source_ne_root h.clear_parent h.unique
    h.srcDots h.source
  change ¬ (pathNames destpath).dropLast ++
      [((v.moved ((s.entry k).setName name) (320 * j) k).entry j).name.toStr] <+: _
  rw [h.moved_self]
  exact hdest

theorem lookup_dest (h : Ready s v srcpath destpath p j k) {name : Str}
    (hname : ((s.entry k).setName name).name.toStr = lastName destpath) :
    (v.moved ((s.entry k).setName name) (320 * j) k).lookup destpath = .ok j := by
  have hself : ((v.moved ((s.entry k).setName name) (320 * j) k).image.entry j).name.toStr =
      lastName destpath := by
    change ((v.moved ((s.entry k).setName name) (320 * j) k).entry j).name.toStr = _
    rw [h.moved_self, hname]
  have hmoved := (h.edit name).resolve_moved h.wf.image h.parent h.directory h.source_live h.source_ne_root
    h.clear_parent h.unique (fun i hi _ => by rw [hself]; exact h.name_new hi)
    (by rw [hself, ← h.dest_eq]; exact h.dest_dotless)
  rw [hself, ← h.dest_eq] at hmoved
  rw [Driver.lookup, (h.frame name).rootSlot]
  exact hmoved

section Content

theorem source_parent (h : Ready s v srcpath destpath p j k) :
    ∃ q, s.image.Live q ∧ s.image.Child q k ∧ q ≠ k := by
  obtain ⟨q, hq, hc⟩ := h.source_live.parent h.source_ne_root
  refine ⟨q, hq, hc, ?_⟩
  rintro rfl
  have hloop := (h.source_named.child hc).unique h.wf.image h.source_named
  have := congrArg List.length hloop
  simp at this

theorem block_moved (h : Ready s v srcpath destpath p j k) (name : Str) {b : ℕ} (hj : j / s.image.epb ≠ b)
    (hk : k / s.image.epb ≠ b) : (v.moved ((s.entry k).setName name) (320 * j) k).block b = s.block b := by
  have hframe := h.only.frame
  have hg := hframe.geometry h.wf.geometry
  rw [moved_block hg (hframe.isSlot.mpr (h.wf.image.slot_data h.parent_live (List.mem_of_mem_drop h.slot)))
    (hframe.isSlot.mpr (h.wf.image.live_data h.source_live)) (by rwa [hframe.epb]) (by rwa [hframe.epb])]
  exact h.only.block b hj

theorem content_moved (h : Ready s v srcpath destpath p j k) (name : Str) :
    (v.moved ((s.entry k).setName name) (320 * j) k).content ((s.entry k).setName name) = s.content (s.entry k) := by
  have hw := h.wf.image
  obtain ⟨q, hq, hc, hqk⟩ := h.source_parent
  have hpk : p ≠ k := fun he => h.clear_parent _ List.prefix_rfl (he ▸ h.parent_named)
  have howns := (h.edit name).owns_moved hw h.source_live
  have hself : (v.moved ((s.entry k).setName name) (320 * j) k).image.entry j = (s.entry k).setName name :=
    h.moved_self name
  rw [hself] at howns
  refine content_same (h.frame name).bs (hw.owns k h.source_live) howns rfl fun b hb => ?_
  exact h.block_moved name (slot_apart hw h.parent_live (List.mem_of_mem_drop h.slot) h.source_live hpk b hb)
    (slot_apart hw hq hc.mem_slots h.source_live hqk b hb)

theorem content_other (h : Ready s v srcpath destpath p j k) (name : Str) {i : ℕ} (hi : s.image.Live i)
    (hik : i ≠ k) (hfile : (s.entry i).isDirectory = false) :
    (v.moved ((s.entry k).setName name) (320 * j) k).content (s.entry i) = s.content (s.entry i) := by
  have hw := h.wf.image
  obtain ⟨q, hq, hc, -⟩ := h.source_parent
  have hne : ∀ {q}, (s.entry q).isDirectory → q ≠ i := by
    rintro q hdir rfl
    rw [hfile] at hdir
    cases hdir
  have howns := (h.edit name).owns hw hi hik
  have hent : (v.moved ((s.entry k).setName name) (320 * j) k).image.entry i = s.entry i :=
    (h.edit name).entry_live hw hi hik
  rw [hent] at howns
  refine content_same (h.frame name).bs (hw.owns i hi) howns rfl fun b hb => ?_
  exact h.block_moved name (slot_apart hw h.parent_live (List.mem_of_mem_drop h.slot) hi (hne h.directory) b hb)
    (slot_apart hw hq hc.mem_slots hi (hne hc.1) b hb)

end Content

end Ready

section Names

theorem components_bytes (path : Str) : ∀ piece ∈ components path, ∀ c ∈ piece, c ∈ path := by
  induction hn : path.length using Nat.strong_induction_on generalizing path with
  | _ n ih =>
    subst hn
    by_cases hnil : path = []
    · subst hnil
      intro piece hp
      cases hp
    obtain ⟨lead, search, last, -, hpath, -, -, hfirst⟩ := pathFirst_split path hnil
    have hlen := pathFirst_length path search _ hfirst
    rw [components_step path search _ hfirst]
    intro piece hp c hc
    rw [hpath, List.mem_append, List.mem_append]
    rcases List.mem_cons.mp hp with rfl | hp
    · exact .inl (.inr hc)
    · by_cases hlast : last = [] ∨ last = [slash]
      · rw [if_pos hlast, if_pos rfl] at hp
        cases hp
      · rw [if_neg hlast] at hlen hp
        rw [if_neg (fun he => hlast (.inl he))] at hp
        exact .inr (ih _ hlen last rfl piece hp c hc)

theorem lastName_bytes {path : Str} {c : UInt8} (h : c ∈ lastName path) : c ∈ path := by
  by_cases hn : pathNames path = []
  · rw [lastName, hn] at h
    cases h
  · have hm : lastName path ∈ pathNames path := by
      rw [pathNames_last hn]
      simp
    unfold pathNames at hm
    split_ifs at hm
    · cases hm
    · exact components_bytes path _ hm c h

theorem baseName_eq {path : Str} (h : pathNames path ≠ []) :
    baseName path = (lastName path).take THORNFAT_PATH_MAX := by
  have hroot : ¬ (path = [slash] ∨ path = []) := fun he => h (if_pos he)
  rw [baseName, pathLast_eq path hroot]
  rfl

end Names

structure Prepared (s t : Fs) (destpath : Str) (k : ℕ) : Prop where
  frame : SameFrame s t
  lookup : ∀ path, NoDots path → ¬ pathNames destpath <+: pathNames path → t.lookup path = s.lookup path
  entry : ∀ i, t.image.Live i → t.entry i = s.entry i ∨
      (s.entry i).isDirectory ∧ ∃ n, t.entry i = (s.entry i).setLength n
  source : t.entry k = s.entry k
  content : t.content (s.entry k) = s.content (s.entry k)
  files : ∀ i, t.image.Live i → (s.entry i).isDirectory = false → t.content (s.entry i) = s.content (s.entry i)
  released : ∀ d, s.lookup destpath = .ok d → ∀ b ∈ s.image.chain d, t.fat b = 0

theorem finds_lookup {s : Fs} (hw : WellFormed s) {path : Str} (hp : NoDots path) :
    s.Finds path (s.found [] (s.lookup path)) :=
  ⟨s.load, run_find_clean hw (clean_of_noDots hw hp)⟩

theorem setName_toStr (e : DirEntry) {name : Str} (hl : name.length ≤ THORNFAT_PATH_MAX)
    (h0 : (0 : UInt8) ∉ name) : (e.setName name).name.toStr = name := Filename.ofBytes_toStr name hl h0

theorem Ready.entryMoved {s u v : Fs} {srcpath destpath : Str} {p j k : ℕ} (hs : WellFormed s)
    (h : Ready u v srcpath destpath p j k) (hprep : Prepared s u destpath k)
    (hshort : (lastName destpath).length ≤ THORNFAT_PATH_MAX) (hnul : (0 : UInt8) ∉ destpath)
    (hdest : ∀ d, s.lookup destpath = .ok d → s.image.Live d) :
    EntryMoved s (v.moved ((s.entry k).setName (baseName destpath)) (320 * j) k) srcpath destpath k := by
  have hbase : baseName destpath = lastName destpath := by
    rw [baseName_eq h.dest_ne_nil, List.take_of_length_le hshort]
  have hname : ((u.entry k).setName (lastName destpath)).name.toStr = lastName destpath :=
    setName_toStr _ hshort fun h0 => hnul (lastName_bytes h0)
  rw [hbase, ← hprep.source]
  have hwt := h.wellFormed (lastName destpath)
  have habove : ∀ {path : Str}, ¬ pathNames destpath <+: pathNames path → ¬ (pathNames destpath).dropLast ++
      [((u.entry k).setName (lastName destpath)).name.toStr] <+: pathNames path := fun {path} hno => by
    rwa [hname, ← h.dest_eq]
  exact {
    there := by
      have hfind := finds_lookup hwt h.destDots
      rw [h.lookup_dest hname, Driver.found, h.moved_self, hprep.source] at hfind
      rw [hprep.source]
      exact ⟨_, hfind⟩
    content := by
      have hcontent := h.content_moved (lastName destpath)
      rw [← hprep.content, ← hprep.source]
      exact hcontent
    gone := by
      have hfind := finds_lookup hwt h.srcDots
      rw [h.lookup_source _ (habove h.above)] at hfind
      exact ⟨_, hfind, show (-ENOENT : ℤ) < 0 by decide⟩
    released := fun d hd b hb => by
      have hlt : b < u.blockCount := by
        rw [hprep.frame.blockCount]
        exact chain_lt hs (hdest d hd) b hb
      exact ((h.edit (lastName destpath)).fat b hlt).trans (hprep.released d hd b hb)
    others := fun path hdot hsrc hdst => by
      have hlookup : (v.moved ((u.entry k).setName (lastName destpath)) (320 * j) k).lookup path =
          s.lookup path :=
        (h.lookup_other _ hdot hsrc (habove hdst)).trans (hprep.lookup path hdot hdst)
      have hfind := finds_lookup hs hdot
      have hfind' := finds_lookup hwt hdot
      rw [hlookup] at hfind'
      refine ⟨_, _, hfind, hfind', ?_⟩
      cases hl : s.lookup path with
      | error status =>
        refine ⟨⟨rfl, rfl, .inl rfl⟩, fun _ => ?_⟩
        have hlen : DirEntry.empty.len = 0 := by decide
        rw [Driver.found, FindResult.fail, Driver.content, Driver.content, hlen, List.take_zero, List.take_zero]
      | ok i =>
        have hl' : u.lookup path = .ok i := (hprep.lookup path hdot hdst).trans hl
        have hin := Image.Named.root.resolve (h.wf.image.avoidsCopies .root hdot.1 hdot.2) hl'
        rw [List.nil_append] at hin
        have hik : i ≠ k := fun he => h.clear hsrc _ List.prefix_rfl (he ▸ hin)
        have hent : (v.moved ((u.entry k).setName (lastName destpath)) (320 * j) k).entry i = u.entry i :=
          (h.edit _).entry_live h.wf.image hin.live hik
        refine ⟨⟨rfl, rfl, ?_⟩, fun hfile => ?_⟩
        · rw [Driver.found, Driver.found, hent]
          exact hprep.entry i hin.live
        · have hue : u.entry i = s.entry i := by
            rcases hprep.entry i hin.live with he | ⟨hd, -⟩
            · exact he
            · have hfile : (s.entry i).isDirectory = false := hfile
              rw [hfile] at hd
              cases hd
          have hfile' : (u.entry i).isDirectory = false := hue ▸ hfile
          have hcontent := h.content_other (lastName destpath) hin.live hik hfile'
          rw [hue] at hcontent
          exact hcontent.trans (hprep.files i hin.live hfile) }

end Thorn.FatDriver

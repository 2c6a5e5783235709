import Thorn.FileRuns
import Thorn.KeptSuperblock
import Thorn.Shell

set_option autoImplicit false

namespace Thorn.FatImage.Image
open Paths FatTypes

variable {I : Image} {pre names : List Str} {p : ℕ} {status : ℤ}

theorem WellFormed.resolve_missing (hw : I.WellFormed) (hu : I.UniqueNames) (hp : I.Named pre p)
    (hdot : Dotless names) (hr : I.resolve p names = .error status) :
    (status = -ENOTDIR ∧ ∃ part q, part <+: names ∧ I.Named (pre ++ part) q ∧ (I.entry q).isDirectory = false) ∨
    (status = -ENOENT ∧ ∀ part q, part <+: names → I.Named (pre ++ part) q → (I.entry q).isDirectory) := by
  induction names generalizing pre p with
  | nil => cases hr
  | cons name names ih =>
    have hname : Dotless [name] := hdot.last (show [] ++ [name] <+: name :: names from ⟨names, rfl⟩)
    have hstart (hd : (I.entry p).isDirectory) (q : ℕ) (hq : I.Named (pre ++ []) q) :
        (I.entry q).isDirectory := by
      rw [List.append_nil] at hq
      rwa [hu.named_eq hq hp]
    by_cases hd : (I.entry p).isDirectory
    · have hwalk := (hw.walkable_iff hp.live).mpr hd
      have hslot (k : ℕ) := hw.findSlot_named (k := k) hu hp hd hname
      cases hl : I.findSlot p name with
      | none =>
        rw [resolve, if_pos hwalk, hl] at hr
        refine .inr ⟨(Except.error.inj hr).symm, fun part q hpart hq => ?_⟩
        cases part with
        | nil => exact hstart hd q hq
        | cons name' part =>
          obtain ⟨rfl, -⟩ := List.cons_prefix_cons.mp hpart
          rw [List.append_cons] at hq
          obtain ⟨k, hk⟩ := hq.take
          rw [(hslot k).mpr hk] at hl
          cases hl
      | some k =>
        have hk := (hslot k).mp hl
        rw [resolve, if_pos hwalk, hl] at hr
        dsimp only at hr
        by_cases hlast : names = []
        · rw [if_pos hlast] at hr
          cases hr
        rw [if_neg hlast] at hr
        by_cases hfile : (I.entry k).isFile
        · rw [if_pos hfile] at hr
          refine .inl ⟨(Except.error.inj hr).symm, [name], k, ⟨names, rfl⟩, hk, ?_⟩
          exact Bool.eq_false_iff.mpr fun hdir => Bool.false_ne_true ((not_file hdir).symm.trans hfile)
        · rw [if_neg hfile] at hr
          rcases ih hk ⟨fun h => hdot.1 (.tail _ h), fun h => hdot.2 (.tail _ h)⟩ hr with
            ⟨hstatus, part, q, hpart, hq, hqf⟩ | ⟨hstatus, hall⟩
          · refine .inl ⟨hstatus, name :: part, q, List.cons_prefix_cons.mpr ⟨rfl, hpart⟩, ?_, hqf⟩
            rwa [List.append_cons]
          · refine .inr ⟨hstatus, fun part q hpart hq => ?_⟩
            cases part with
            | nil => exact hstart hd q hq
            | cons name' part =>
              obtain ⟨rfl, htail⟩ := List.cons_prefix_cons.mp hpart
              rw [List.append_cons] at hq
              exact hall part q htail hq
    · rw [resolve, if_neg (fun hwalk => hd ((hw.walkable_iff hp.live).mp hwalk))] at hr
      refine .inl ⟨(Except.error.inj hr).symm, [], p, List.nil_prefix, ?_, Bool.eq_false_iff.mpr hd⟩
      rwa [List.append_nil]

end Thorn.FatImage.Image

namespace Thorn.FatDriver
open ByteStore Paths FatTypes FatOperations FatImage LinkedChain NamedStore

structure Mounted (s : Fs) (m : NamedStore.Store (List Str)) : Prop where
  tree : Treelike s
  stamped : Stamped s
  view : s.view = m

def Missing (m : NamedStore.Store (List Str)) (names : List Str) (status : ℤ) : Prop :=
  m names = none ∧
    ((status = -ENOTDIR ∧ ∃ part content, part <+: names ∧ m part = some (.file content)) ∨
      (status = -ENOENT ∧ ∀ part content, part <+: names → m part ≠ some (.file content)))

theorem Missing.neg {m : NamedStore.Store (List Str)} {names : List Str} {status : ℤ}
    (h : Missing m names status) : -2 ^ 31 ≤ status ∧ status < 0 := by
  rcases h.2 with ⟨rfl, -⟩ | ⟨rfl, -⟩
  · decide
  · decide

namespace Mounted
variable {s : Fs} {m : NamedStore.Store (List Str)} {path : Str} {names : List Str} {content : List UInt8}

theorem verify (h : Mounted s m) : FatOperations.verify s = some (true, s) :=
  h.stamped.verify h.tree.wf.geometry

theorem load (h : Mounted s m) : Mounted s.load m where
  tree := h.tree.load
  stamped := h.stamped.kept (superblock_le h.tree.wf.geometry) (.still (SameFrame.load s) rfl)
  view := h.view

theorem call (h : Mounted s m) {c : Call} (hc : Legal s c) (ht : c.Tame s) :
    ∃ m', Mounted (c.after s) m' ∧ Changes m (c.change s) m' := by
  obtain ⟨htree, hchange⟩ := h.tree.carries hc ht
  rw [h.view] at hchange
  exact ⟨_, ⟨htree, h.stamped.kept (superblock_le h.tree.wf.geometry) (.call hc), rfl⟩, hchange⟩

section Lookups

theorem clean (h : Mounted s m) (hdots : NoDots path) : s.Clean path := clean_of_noDots h.tree.wf hdots

theorem node (h : Mounted s m) {k : ℕ} (hk : s.image.Named names k) : m names = some (s.node k) :=
  h.view ▸ view_some h.tree.unique hk

theorem exists_named (h : Mounted s m) {node : NamedStore.Node} (hm : m names = some node) :
    ∃ k, s.image.Named names k ∧ s.node k = node := by
  by_cases hex : ∃ k, s.image.Named names k
  · obtain ⟨k, hk⟩ := hex
    exact ⟨k, hk, Option.some.inj ((h.node hk).symm.trans hm)⟩
  · rw [← h.view, view_none (not_exists.mp hex)] at hm
    cases hm

theorem not_named (h : Mounted s m) (hm : m names = none) (k : ℕ) : ¬ s.image.Named names k := fun hk => by
  rw [h.node hk] at hm
  cases hm

theorem lookup_of_named (h : Mounted s m) (hdots : NoDots path) {k : ℕ}
    (hk : s.image.Named (pathNames path) k) :
    s.lookup path = .ok k := (lookup_named h.tree.wf h.tree.unique hdots).mpr hk

theorem readable (h : Mounted s m) {k : ℕ} (hk : s.image.Live k) : s.image.Readable (s.entry k) :=
  h.tree.wf.image.readable hk

theorem file (h : Mounted s m) (hm : m names = some (.file content)) :
    ∃ k, s.image.Named names k ∧ (s.entry k).isDirectory = false ∧ s.content (s.entry k) = content ∧
      (s.entry k).len = content.length := by
  obtain ⟨k, hk, hnode⟩ := h.exists_named hm
  by_cases hd : (s.entry k).isDirectory
  · rw [node_directory hd] at hnode
    cases hnode
  · have hfile := Bool.eq_false_iff.mpr hd
    rw [node_file hfile] at hnode
    obtain rfl := NamedStore.Node.file.inj hnode
    exact ⟨k, hk, hfile, rfl, (content_length h.tree.wf.geometry (h.readable hk.live)).symm⟩

theorem directory (h : Mounted s m) (hm : m names = some .directory) :
    ∃ k, s.image.Named names k ∧ (s.entry k).isDirectory := by
  obtain ⟨k, hk, hnode⟩ := h.exists_named hm
  refine ⟨k, hk, ?_⟩
  by_contra hfile
  rw [node_file (Bool.eq_false_iff.mpr hfile)] at hnode
  cases hnode

theorem missing (h : Mounted s m) (hdots : NoDots path) (hm : m (pathNames path) = none) :
    ∃ status, s.lookup path = .error status ∧ Missing m (pathNames path) status := by
  cases hl : s.lookup path with
  | ok k => exact absurd (h.tree.found hdots hl) (h.not_named hm k)
  | error status =>
    refine ⟨status, rfl, hm, ?_⟩
    rcases h.tree.wf.image.resolve_missing h.tree.unique .root hdots hl with
      ⟨hstatus, part, q, hpart, hq, hfile⟩ | ⟨hstatus, hall⟩
    · exact .inl ⟨hstatus, part, _, hpart, (h.node hq).trans (congrArg some (node_file hfile))⟩
    · refine .inr ⟨hstatus, fun part content hpart hpm => ?_⟩
      obtain ⟨q, hq, hfile, -⟩ := h.file hpm
      exact Bool.false_ne_true (hfile.symm.trans (hall part q hpart hq))

theorem fileAt (h : Mounted s m) (hdots : NoDots path) (hm : m (pathNames path) = some (.file content)) :
    s.FileAt path where
  dots := hdots
  file k hk := by
    obtain ⟨k', hk', hfile, -⟩ := h.file hm
    obtain rfl := h.tree.unique.named_eq (h.tree.found hdots hk) hk'
    exact hfile

end Lookups

section Answers

theorem run_asked (h : Mounted s m) (hdots : NoDots path) {α : Type} (fails : ℤ → α) (answer : DirEntry → α) :
    (do
      let found ← find path false
      if found.status < 0 then pure (fails found.status) else pure (answer found.entry) : Action FlatDevice α) s =
    some (match s.lookup path with
      | .error status => fails status
      | .ok k => answer (s.entry k), s.load) := by
  rw [run_bind, run_find_clean h.tree.wf (h.clean hdots), Option.bind_some]
  cases hl : s.lookup path with
  | error status =>
    rw [run_ite, if_pos (show (Driver.found s [] (.error status)).status < 0 from lookup_neg hl), run_pure]
    rfl
  | ok k =>
    rw [run_ite, if_neg (show ¬ (Driver.found s [] (.ok k)).status < 0 from lt_irrefl _), run_pure]
    rfl

theorem run_getsize (h : Mounted s m) (hdots : NoDots path) : getsize path s = some (match s.lookup path with
    | .error status => (status, 0)
    | .ok k => (0, (s.entry k).len), s.load) :=
  h.run_asked hdots (fun status => (status, 0)) fun e => (0, e.len)

theorem run_isdir (h : Mounted s m) (hdots : NoDots path) : isdir path s = some (match s.lookup path with
    | .error status => status
    | .ok k => if (s.entry k).isDirectory then 1 else 0, s.load) :=
  h.run_asked hdots id fun e => if e.isDirectory then 1 else 0

theorem run_isfile (h : Mounted s m) (hdots : NoDots path) : isfile path s = some (match s.lookup path with
    | .error status => status
    | .ok k => if (s.entry k).isFile then 1 else 0, s.load) :=
  h.run_asked hdots id fun e => if e.isFile then 1 else 0

end Answers

section Calls

theorem legal (h : Mounted s m) {c : Call} (hdots : ∀ path ∈ c.paths, NoDots path)
    (hforward : c.Forward s) {status : ℤ} {t : Fs} (hrun : c.run s = some (status, t)) : Legal s c where
  wf := h.tree.wf
  reads := .inr ⟨Call.clean_of_noDots h.tree.wf hdots, hforward⟩
  returns := by rw [hrun]; exact Option.some_ne_none _

theorem changed (h : Mounted s m) {c : Call} (hdots : ∀ path ∈ c.paths, NoDots path) (hforward : c.Forward s)
    (htame : c.Tame s) {status : ℤ} {t : Fs} (hrun : c.run s = some (status, t)) :
    ∃ m', Mounted t m' ∧ Changes m (c.change s) m' := by
  obtain ⟨m', hm', hchange⟩ := h.call (h.legal hdots hforward hrun) htame
  exact ⟨m', after_eq hrun ▸ hm', hchange⟩

theorem reads (h : Mounted s m) (hdots : NoDots path) (hm : m (pathNames path) = some (.file content))
    (hsmall : content.length < 2 ^ 31) :
    ∃ t, FatOperations.read path content.length 0 s = some (((content.length : ℤ), content), t) ∧ Mounted t m := by
  obtain ⟨k, hk, hfile, hcontent, hlen⟩ := h.file hm
  have htrue : s.ReadsTrue (s.entry k) content.length 0 :=
    .inr (.inl ⟨by omega, .inr (.inl (Nat.zero_mod _))⟩)
  have hwindow : ((s.content (s.entry k)).drop 0).take content.length = content := by
    rw [hcontent, List.drop_zero, List.take_length]
  obtain ⟨t, ht⟩ := read_window h.tree.wf hdots (h.lookup_of_named hdots hk) hk.live hfile hwindow hsmall
    (by omega) htrue
  have hrun : (Call.read path content.length (0 : ℕ)).run s = some ((content.length : ℤ), t) := by
    change (FatOperations.read path content.length (0 : ℕ) s).bind _ = _
    rw [ht]
    rfl
  obtain ⟨m', hmounted, hchange⟩ := h.changed (c := .read path content.length (0 : ℕ))
    (fun p hp => List.mem_singleton.mp hp ▸ hdots) trivial (h.fileAt hdots hm) hrun
  cases hchange
  exact ⟨t, ht, hmounted⟩

theorem writes (h : Mounted s m) (hdots : NoDots path) (hm : m (pathNames path) = some (.file content))
    {contents : List UInt8} (hlen : content.length = contents.length) (hpos : 1 ≤ contents.length)
    (hsmall : contents.length < 2 ^ 31) :
    ∃ t, FatOperations.write path contents 0 s = some ((contents.length : ℤ), t) ∧
      Mounted t (Function.update m (pathNames path) (some (.file contents))) := by
  obtain ⟨k, hk, hfile, -, hsize⟩ := h.file hm
  have hlookup := h.lookup_of_named hdots hk
  have hread := h.readable hk.live
  have hmax : max (s.entry k).len (0 + contents.length) = (s.entry k).len := by omega
  have hblocks : s.blocksFor (s.entry k).len ≤ (s.image.chain k).length := by
    rw [Driver.blocksFor, ← h.tree.wf.geometry.image_bs]
    exact hread.size.ge
  have hroom : ¬ s.TooLarge (s.entry k) (max (s.entry k).len (0 + contents.length)) := by
    rw [hmax]
    exact fun hlarge => absurd hlarge.1 (not_lt.mpr ((le_max_right _ _).trans hblocks))
  have hwalk := h.tree.wf.image.walkReadable .root (h.tree.wf.image.avoidsCopies .root hdots.1 hdots.2)
  have hrun :=
    run_write h.tree.wf hwalk hlookup hread (h.tree.wf.image.live_data hk.live) contents 0 hpos hsmall
    (Nat.zero_le _)
  rw [if_neg hroom] at hrun
  have htame : (Call.write path contents (0 : ℕ)).Tame s := by
    refine ⟨h.fileAt hdots hm, fun k' hk' => .inl ?_⟩
    obtain rfl : k = k' := Except.ok.inj (hlookup.symm.trans hk')
    rw [Int.toNat_natCast, hmax]
    exact hblocks
  obtain ⟨m', hmounted, hchange⟩ := h.changed (c := .write path contents (0 : ℕ))
    (fun p hp => List.mem_singleton.mp hp ▸ hdots) (fun _ _ => .inr ⟨Int.natCast_nonneg _, by omega⟩) htame hrun
  refine ⟨_, hrun, ?_⟩
  simp only [Call.change, hlookup, Int.toNat_natCast,
    writtenSize_natCast _ (show 0 + contents.length < 2 ^ 63 by omega), if_neg hroom] at hchange
  cases hchange with
  | @store x old fill bytes offset hx hfill =>
    obtain rfl : content = old := NamedStore.Node.file.inj (Option.some.inj (hm.symm.trans hx))
    obtain rfl : fill = [] := List.eq_nil_of_length_eq_zero (by omega)
    rwa [List.append_nil, overlay_full _ _ hlen.le] at hmounted

theorem stores (h : Mounted s m) (hdots : NoDots path) (hm : m (pathNames path) = some (.file content))
    {k : ℕ} (hk : s.lookup path = .ok k) {contents : List UInt8} (hpos : 1 ≤ contents.length)
    (hsmall : contents.length < 2 ^ 31) (hroom : ¬ s.TooLarge (s.entry k) contents.length)
    (hright : s.SizesRight k contents.length) (hcuts : s.CutsOwn k contents.length) :
    ∃ t u, truncate path contents.length s = some (0, t) ∧
      FatOperations.write path contents 0 t = some ((contents.length : ℤ), u) ∧
      Mounted u (Function.update m (pathNames path) (some (.file contents))) := by
  have hsize : toSize (contents.length : ℤ) = contents.length := toSize_natCast _ (by omega)
  have hrun := run_truncate h.tree.wf (opens_of_noDots h.tree.wf hdots _) contents.length
  rw [hk] at hrun
  simp only [hsize, if_neg hroom] at hrun
  have htame : (Call.truncate path contents.length).Tame s := by
    refine ⟨h.fileAt hdots hm, fun k' hk' => ?_⟩
    obtain rfl : k = k' := Except.ok.inj (hk.symm.trans hk')
    rw [hsize]
    exact ⟨hright, hcuts⟩
  obtain ⟨m', ht, hchange⟩ := h.changed (c := .truncate path contents.length)
    (fun p hp => List.mem_singleton.mp hp ▸ hdots) trivial htame hrun
  simp only [Call.change, hk, hsize, if_neg hroom] at hchange
  cases hchange with
  | @size x old fill length hx hfill =>
    have hlen : ((old ++ fill).take contents.length).length = contents.length := by
      rw [List.length_take, List.length_append]
      omega
    obtain ⟨u, hwrite, hu⟩ := ht.writes hdots (Function.update_self _ _ _) hlen hpos hsmall
    rw [Function.update_idem] at hu
    exact ⟨_, u, hrun, hwrite, hu⟩

theorem removes (h : Mounted s m) (hdots : NoDots path) (hm : m (pathNames path) = some (.file content)) :
    ∃ t, unlink path s = some (0, t) ∧ Mounted t (Function.update m (pathNames path) none) := by
  obtain ⟨k, hk, hfile, -⟩ := h.file hm
  have hlookup := h.lookup_of_named hdots hk
  have hrun := run_unlink h.tree.wf (opens_of_noDots h.tree.wf hdots _)
  have hno : ¬ (s.entry k).isDirectory := Bool.eq_false_iff.mp hfile
  rw [hlookup] at hrun
  simp only [if_neg hno] at hrun
  obtain ⟨m', ht, hchange⟩ :=
    h.changed (c := .unlink path) (fun p hp => List.mem_singleton.mp hp ▸ hdots) trivial hdots
    hrun
  simp only [Call.change, hlookup, if_neg hno] at hchange
  cases hchange
  exact ⟨_, hrun, ht⟩

end Calls

end Mounted

structure NewName (m : NamedStore.Store (List Str)) (path : Str) : Prop where
  canonical : simplifyPath path = path
  below : path ≠ [slash]
  text : (0 : UInt8) ∉ path
  short : (lastName path).length ≤ THORNFAT_PATH_MAX
  fresh : m (pathNames path) = none
  parent : m (pathNames path).dropLast = some .directory

structure Driver.Room (s : Fs) (path : Str) (length : ℕ) : Prop where
  slot : s.HasSlot path
  blocks : ∀ p, s.lookupParent path = .ok p → s.load.asks p length ≤ s.load.freeList.length

namespace Mounted
variable {s : Fs} {m : NamedStore.Store (List Str)} {path : Str}

theorem newFile_stands (h : Mounted s m) (hname : NewName m path) {length : ℕ} (hroom : s.Room path length)
    (type : FileType) : ∃ r t, newFile path length type none false s = some (r, t) ∧ r.status = 0 := by
  obtain ⟨p, hp, -⟩ := hroom.slot
  have hdots : NoDots path := hname.canonical ▸ simplifyPath_noDots path
  have hnamed : s.image.Named (pathNames path).dropLast p := by
    have havoid := h.tree.wf.image.avoidsCopies .root (fun hd => hdots.1 (List.dropLast_subset _ hd))
      fun hd => hdots.2 (List.dropLast_subset _ hd)
    exact Image.Named.root.walkDirs havoid hp
  have hd : (s.entry p).isDirectory := by
    obtain ⟨q, hq, hd⟩ := h.directory hname.parent
    rwa [h.tree.unique.named_eq hnamed hq]
  obtain ⟨r, t, hrun, hyes, -⟩ :=
    newFile_ends h.tree.wf (stays_of_noDots h.tree.wf hdots).dropLast hp hd hname.short length type none
  exact ⟨r, t, hrun, (hyes (hroom.blocks p hp)).status⟩

theorem creates (h : Mounted s m) (hname : NewName m path) (hroom : s.Room path 0) (modes : BitVec 32) :
    ∃ t, create path modes s = some (0, t) ∧
      Mounted t (Function.update m (pathNames path) (some (.file []))) := by
  have hdots : NoDots path := hname.canonical ▸ simplifyPath_noDots path
  obtain ⟨status, hl, -⟩ := h.missing hdots hname.fresh
  obtain ⟨r, u, hnew, hzero⟩ := h.load.newFile_stands hname ⟨hroom.slot, hroom.blocks⟩ .File
  have hfind := run_find_clean h.tree.wf (h.clean hdots)
  have hnot : ¬ 0 ≤ (Driver.found s [] (.error status)).status := not_le.mpr (lookup_neg hl)
  have hrun : create path modes s = some (0, u.storeEntry { r.entry with modes := modes } r.offset) := by
    unfold create
    rw [run_bind, hfind, hl, Option.bind_some, run_ite, if_neg hnot, run_bind, hname.canonical, hnew,
      Option.bind_some, run_ite, if_neg (by rw [hzero]; exact lt_irrefl _), run_bind, run_writeEntry,
      Option.bind_some, run_pure]
  have htame : (Call.create path modes).Tame s :=
    .inr ⟨⟨hname.canonical, hname.below, hname.text, h.not_named hname.fresh, _, hrun⟩, hroom.slot⟩
  obtain ⟨m', ht, hchange⟩ :=
    h.changed (c := .create path modes) (fun p hp => List.mem_singleton.mp hp ▸ hdots) trivial
    htame hrun
  simp only [Call.change, hl] at hchange
  cases hchange
  exact ⟨_, hrun, ht⟩

theorem makes (h : Mounted s m) (hname : NewName m path) (hroom : s.Room path sizeofDirEntry) :
    ∃ t, mkdir path s = some (0, t) ∧ Mounted t (Function.update m (pathNames path) (some .directory)) := by
  obtain ⟨r, u, hnew, hzero⟩ := h.newFile_stands hname hroom .Directory
  have hrun : mkdir path s =
      some (0, u.storeEntry (r.parent.setName dotDotName) (mul32 r.entry.start u.bs)) := by
    unfold mkdir
    rw [run_bind, hname.canonical, hnew, Option.bind_some, run_ite, if_neg (by rw [hzero]; exact lt_irrefl _)]
    simp only [run_bind, run_get, Option.bind_some, run_writeEntry, run_ite, lt_self_iff_false, ite_false,
      run_pure]
  have htame : (Call.mkdir path).Tame s :=
    ⟨⟨hname.canonical, hname.below, hname.text, h.not_named hname.fresh, _, hrun⟩, hroom.slot⟩
  obtain ⟨m', ht, hchange⟩ :=
    h.changed (c := .mkdir path) (fun p hp => absurd hp List.not_mem_nil) trivial htame hrun
  cases hchange
  exact ⟨_, hrun, ht⟩

def Lists (m : NamedStore.Store (List Str)) (dir : List Str) (items : List Str) : Prop :=
  ∀ name, name ≠ dotName → name ≠ dotDotName → items.count name = if m (dir ++ [name]) = none then 0 else 1

theorem lists (h : Mounted s m) (hdots : NoDots path) (hm : m (pathNames path) = some .directory) :
    ∃ items, readdir path s = some ((0, items), s.load) ∧ (∀ item ∈ items, (0 : UInt8) ∉ item.1) ∧
      Lists m (pathNames path) (items.map Prod.fst) := by
  obtain ⟨k, hk, hd⟩ := h.directory hm
  refine ⟨_, run_readdir h.tree.wf hdots (h.lookup_of_named hdots hk) hd, fun item hitem hzero => ?_,
    fun name hdot hdotdot => ?_⟩
  · rcases List.mem_append.mp hitem with hself | hused
    · split_ifs at hself
      · exact absurd hself List.not_mem_nil
      · rw [List.mem_singleton.mp hself] at hzero
        exact absurd hzero (by decide)
    · obtain ⟨j, -, rfl⟩ := List.mem_map.mp hused
      have htext : (0 : UInt8) ∈ (s.entry j).name.str.takeWhile (· ≠ 0) := hzero
      exact absurd (List.mem_takeWhile_imp htext) (by decide)
  have hself : (((if (s.entry k).start = s.superblock.startBlock then [] else [(dotName, 0)]) :
      List (Str × ℕ)).map Prod.fst).count name = 0 := by
    split_ifs
    · rfl
    · exact List.count_eq_zero.mpr fun hmem => hdot (List.mem_singleton.mp hmem)
  have hused : (((s.image.slots k).filter fun j => !s.free (s.entry j)).map fun j =>
      ((s.entry j).name.toStr, 320 * j)).map Prod.fst = usedNames s.image k := by
    rw [List.map_map]
    rfl
  have hmem := mem_usedNames h.tree.wf.image hk.live hd hdot hdotdot
  rw [List.map_append, List.count_append, hself, Nat.zero_add, hused]
  split_ifs with hnone
  · refine List.count_eq_zero.mpr fun hin => ?_
    obtain ⟨j, hj, rfl⟩ := hmem.mp hin
    exact h.not_named hnone j (hk.child hj)
  · refine count_usedNames h.tree.wf.image h.tree.unique hk.live hd hdot hdotdot ?_
    obtain ⟨node, hnode⟩ := Option.ne_none_iff_exists'.mp hnone
    obtain ⟨j, hj, -⟩ := h.exists_named hnode
    obtain ⟨p, hp, hchild, hname⟩ := hj.pop
    obtain rfl := h.tree.unique.named_eq hp hk
    exact ⟨j, hchild, hname⟩

theorem unlists (h : Mounted s m) (hdots : NoDots path) (hm : m (pathNames path) ≠ some .directory) :
    readdir path s = some (match s.lookup path with
      | .error status => (status, [])
      | .ok _ => (-ENOTDIR, []), s.load) := by
  unfold readdir
  rw [run_bind, run_find_clean h.tree.wf (h.clean hdots), Option.bind_some]
  cases hl : s.lookup path with
  | error status =>
    rw [run_ite, if_pos (show (Driver.found s [] (.error status)).status < 0 from lookup_neg hl), run_pure]
    rfl
  | ok k =>
    have hfile : ¬ (s.entry k).isDirectory := fun hd => by
      have hnode := h.node (h.tree.found hdots hl)
      exact hm (hnode.trans (congrArg some (node_directory hd)))
    rw [run_ite, if_neg (show ¬ (Driver.found s [] (.ok k)).status < 0 from lt_irrefl _), run_ite,
      if_pos (show ¬ (Driver.found s [] (.ok k)).entry.isDirectory from hfile), run_pure]

end Mounted

end Thorn.FatDriver

import Thorn.RenameLosses

set_option autoImplicit false

namespace Thorn.FatDriver
open ByteStore Paths FatTypes FatOperations FatImage LinkedChain

structure Reported (s : Fs) (r : FindResult) (k : ℕ) : Prop where
  status : r.status = 0
  entry : r.entry = s.entry k
  offset : r.offset = 320 * k
  stored : DirEntry.decode (slice s.data r.offset sizeofDirEntry) = r.entry

/-- What `find` is to report of a path with these components. -/
structure Resolves (s : Fs) (names : List Str) (r : FindResult) : Prop where
  found : ∀ k, s.image.Named names k → Reported s r k
  success : r.status = 0 → ∃ k, s.image.Named names k
  stopped : ∀ pre name rest q, names = pre ++ name :: rest → s.image.Named pre q →
    (∀ k, ¬ s.image.Named (pre ++ [name]) k) → r.status = if (s.entry q).isDirectory then -ENOENT else -ENOTDIR

/-- With `get_parent`: the directory that the other components lead to, and the last component. -/
structure ResolvesParent (s : Fs) (names : List Str) (r : FindResult) : Prop where
  found : ∀ q, s.image.Named names.dropLast q → (s.entry q).isDirectory → Reported s r q
  last : ∀ q, s.image.Named names.dropLast q → (s.entry q).isDirectory → names.getLast? = some r.last_name

section Find
variable {s : Fs} {path : Str} {names : List Str}

theorem reported (s : Fs) (k : ℕ) (last_name : Str) : Reported s ⟨0, s.entry k, 320 * k, last_name⟩ k :=
  ⟨rfl, rfl, rfl, (entry_eq s k).symm⟩

theorem spelled_dotless (h : Spells path names) : Image.Dotless names := h.pathNames ▸ h.noDots

theorem lookup_spelled (h : Spells path names) : s.lookup path = s.image.resolve s.image.rootSlot names := by
  rw [Driver.lookup, h.pathNames]

theorem resolves (hw : WellFormed s) (hu : s.image.UniqueNames) (h : Spells path names) :
    Resolves s names (s.found [] (s.lookup path)) := by
  have hdot := spelled_dotless h
  rw [lookup_spelled h]
  have hstopped : ∀ pre name rest q, names = pre ++ name :: rest → s.image.Named pre q →
      (∀ k, ¬ s.image.Named (pre ++ [name]) k) → (s.found [] (s.image.resolve s.image.rootSlot names)).status =
        if (s.entry q).isDirectory then -ENOENT else -ENOTDIR := by
    rintro pre name rest q rfl hq hno
    rw [hw.image.resolve_stops hu hq hno hdot]
    rfl
  refine ⟨fun k hk => ?_, fun h0 => ?_, hstopped⟩
  · rw [hw.image.resolve_named hu hk hdot]
    exact reported s k []
  · by_contra hno
    obtain ⟨pre, name, rest, q, heq, hq, hnone⟩ := Image.stops names (not_exists.mp hno)
    rw [hstopped pre name rest q heq hq hnone] at h0
    split_ifs at h0 <;> cases h0

theorem resolvesParent (hw : WellFormed s) (hu : s.image.UniqueNames) (h : Spells path names) :
    ResolvesParent s names (s.found ((pathNames path).getLastD []) (s.lookupParent path)) := by
  have hsplit := List.dropLast_append_getLast h.nonempty
  have hdot : Image.Dotless names.dropLast := by
    have hd := spelled_dotless h
    rw [← hsplit] at hd
    exact hd.take
  have hwalk : ∀ q, s.image.Named names.dropLast q → (s.entry q).isDirectory → s.lookupParent path = .ok q := by
    intro q hq hd
    rw [Driver.lookupParent, h.pathNames]
    exact Image.walkDirs_of_resolve (hw.image.resolve_named hu hq hdot) (Image.not_file hd)
  constructor
  · intro q hq hd
    rw [hwalk q hq hd]
    exact reported s q _
  · intro q hq hd
    rw [hwalk q hq hd, h.pathNames, List.getLastD_eq_getLast?, List.getLast?_eq_getLast_of_ne_nil h.nonempty]
    rfl

/-- `find` resolves a path along the live directories that its components name. -/
theorem find_resolves (s : Fs) (hw : WellFormed s) (hu : s.image.UniqueNames) (path : Str) (names : List Str)
    (h : Spells path names) :
    (∃ r, find path false s = some (r, s.load) ∧ Resolves s names r) ∧
      ∃ r, find path true s = some (r, s.load) ∧ ResolvesParent s names r := by
  have hclean := clean_of_noDots hw h.noDots
  have hparent := run_find_parent hw path (Image.WalkReadable.dropLast hclean)
  exact ⟨⟨_, run_find_clean hw hclean, resolves hw hu h⟩, ⟨_, hparent, resolvesParent hw hu h⟩⟩

end Find

/-- The file in slot `k` is gone, known as `path`: its blocks are free, its slot has no block, and
nothing else has changed. -/
structure FileGone (s t : Fs) (path : Str) (k : ℕ) : Prop where
  cells : ∀ b : ℕ, b < s.blockCount → t.fat b = if b ∈ s.image.chain k then 0 else s.fat b
  slot : t.entry k = (s.entry k).setStart 0
  slots : ∀ j, s.IsSlot j → j ≠ k → t.entry j = s.entry j
  lost : ∃ r, t.Finds path r ∧ r.status = -ENOENT
  others : ∀ path' j, NoDots path' → s.image.Named (pathNames path') j → j ≠ k →
    ∃ r, s.Finds path' r ∧ t.Finds path' r ∧ Reported s r j

structure UnlinksOne (s : Fs) (path : Str) (status : ℤ) (t : Fs) : Prop where
  directory : ∀ k, s.image.Named (pathNames path) k → (s.entry k).isDirectory → status = -EISDIR ∧
    t.partition.parent = s.partition.parent
  missing : (∀ k, ¬ s.image.Named (pathNames path) k) → (∃ r, s.Finds path r ∧ status = r.status) ∧ status < 0 ∧
    t.partition.parent = s.partition.parent
  file : ∀ k, s.image.Named (pathNames path) k → (s.entry k).isDirectory = false → status = 0 ∧ FileGone s t path k

section Unlink
variable {s : Fs} {path : Str} {k : ℕ}

theorem lookup_named (hw : WellFormed s) (hu : s.image.UniqueNames) (hdot : NoDots path) :
    s.lookup path = .ok k ↔ s.image.Named (pathNames path) k := by
  constructor
  · intro hk
    have hn := Image.Named.root.resolve (hw.image.avoidsCopies .root hdot.1 hdot.2) hk
    rwa [List.nil_append] at hn
  · exact fun hk => hw.image.resolve_named hu hk hdot

theorem file_clear (hu : s.image.UniqueNames) {names pre : List Str} {j : ℕ} (hk : s.image.Named pre k)
    (hfile : (s.entry k).isDirectory = false) (hj : s.image.Named names j) (hne : j ≠ k) :
    s.image.Clear k names := by
  intro pre hpre hn
  by_cases heq : pre = names
  · subst heq
    exact hne (hu.named_eq hj hn)
  · obtain ⟨q, hq, hdir⟩ := hj.through hpre heq
    obtain rfl := hu.named_eq hq hn
    exact absurd hdir (by simp [hfile, Driver.image])

theorem removed_gone (hw : WellFormed s) (hroot : s.root = s.entry s.image.rootSlot) (hu : s.image.UniqueNames)
    (hdot : NoDots path) (hk : s.image.Named (pathNames path) k) (hfile : (s.entry k).isDirectory = false) :
    FileGone s (s.removed k) path k := by
  have hlive := hk.live
  have hr := hw.image.ne_root_of_file hfile
  have hleaf := Image.leaf_of_file (I := s.image) hfile
  have hfreed := removed_freed hw hlive hr
  obtain ⟨hw', hroot'⟩ := removed_wellFormed hw hroot hlive hfile hr
  have hentry : ∀ j, s.IsSlot j → j ≠ k → (s.removed k).entry j = s.entry j := fun j hj hne => by
    rw [removed_entry hw hlive hr hj, if_neg hne]
  refine ⟨fun b hb => removed_fat hw hlive hb, ?_, hentry, ?_, fun path' j hdot' hj hne => ?_⟩
  · rw [removed_entry hw hlive hr (hw.image.live_data hlive), if_pos rfl]
  · refine ⟨_, ⟨_, run_find_clean hw' (clean_of_noDots hw' hdot)⟩, ?_⟩
    have hgone := hfreed.resolve_gone hw.image hlive hr hleaf hu hdot ((lookup_named hw hu hdot).mpr hk)
    rw [Driver.lookup, (removed_frame s k).rootSlot, hgone]
    rfl
  · have hl := (lookup_named hw hu hdot').mpr hj
    have hclear := file_clear hu hk hfile hj hne
    have hsame := (hfreed.findsAlike hw.image hlive hr hleaf hu hdot' hclear).resolve hw.image hdot'
    have hl' : (s.removed k).lookup path' = .ok j := by
      rw [Driver.lookup, (removed_frame s k).rootSlot, hsame]
      exact hl
    have hfind := run_find_clean hw (clean_of_noDots hw hdot')
    have hfind' := run_find_clean hw' (clean_of_noDots hw' hdot')
    rw [hl] at hfind
    rw [hl', Driver.found, hentry j (hw.image.live_data hj.live) hne] at hfind'
    exact ⟨_, ⟨_, hfind⟩, ⟨_, hfind'⟩, reported s j []⟩

/-- `unlink` takes away the file it finds and nothing else. -/
theorem unlink_frees (s : Fs) (hw : WellFormed s) (hu : s.image.UniqueNames) (path : Str) (hdot : NoDots path) :
    ∃ status t, unlink path s = some (status, t) ∧ UnlinksOne s path status t := by
  have hclean := clean_of_noDots hw hdot
  have hrun := run_unlink hw (opens_of_noDots hw hdot _)
  have hnamed := fun k => lookup_named (k := k) hw hu hdot
  cases hl : s.lookup path with
  | error status =>
    rw [hl] at hrun
    have hno : ∀ k, ¬ s.image.Named (pathNames path) k := fun k hk => by
      rw [(hnamed k).mpr hk] at hl
      cases hl
    have hfind := run_find_clean hw hclean
    rw [hl] at hfind
    exact ⟨_, _, hrun, fun k hk => absurd hk (hno k), fun _ => ⟨⟨_, ⟨_, hfind⟩, rfl⟩, lookup_neg hl, rfl⟩,
      fun k hk => absurd hk (hno k)⟩
  | ok k =>
    rw [hl] at hrun
    dsimp only at hrun
    have hk := (hnamed k).mp hl
    have hsame : ∀ j, s.image.Named (pathNames path) j → j = k := fun j hj => hu.named_eq hj hk
    by_cases hdir : (s.entry k).isDirectory
    · rw [if_pos hdir] at hrun
      refine ⟨_, _, hrun, fun j hj _ => ⟨rfl, rfl⟩, fun hno => absurd hk (hno k), fun j hj hfile => ?_⟩
      rw [hsame j hj, hdir] at hfile
      cases hfile
    · rw [if_neg hdir] at hrun
      refine ⟨_, _, hrun, fun j hj hdir' => ?_, fun hno => absurd hk (hno k), fun j hj hfile => ⟨rfl, ?_⟩⟩
      · rw [hsame j hj] at hdir'
        exact absurd hdir' hdir
      · obtain rfl := hsame j hj
        have hgone := removed_gone hw.load rfl hu hdot hj hfile
        refine ⟨hgone.cells, hgone.slot, hgone.slots, hgone.lost, fun path' i hdot' hi hne => ?_⟩
        obtain ⟨r, hs, ht, hr⟩ := hgone.others path' i hdot' hi hne
        exact ⟨r, (finds_load hw hdot').mp hs, ht, hr.1, hr.2, hr.3, hr.4⟩

end Unlink

section Sample
open FatSample

def pathDH : Str := slash :: nameD ++ slash :: nameH

theorem pathDH_spells : Spells pathDH [nameD, nameH] where
  nonempty := List.cons_ne_nil _ _
  plain name h := by
    simp only [List.mem_cons, List.not_mem_nil, or_false] at h
    rcases h with rfl | rfl <;> exact ⟨by decide, by decide, by decide, by decide⟩
  text := ⟨[slash], [], .inr rfl, .inl rfl, rfl⟩

theorem find_resolves_h : (∃ r, find pathDH false disk = some (r, disk.load) ∧ Resolves disk [nameD, nameH] r) ∧
    ∃ r, find pathDH true disk = some (r, disk.load) ∧ ResolvesParent disk [nameD, nameH] r :=
  find_resolves disk disk_wellFormed disk_unique pathDH [nameD, nameH] pathDH_spells

theorem unlink_frees_f : ∃ status t, unlink pathF disk = some (status, t) ∧ UnlinksOne disk pathF status t :=
  unlink_frees disk disk_wellFormed disk_unique pathF pathF_noDots

end Sample

end Thorn.FatDriver

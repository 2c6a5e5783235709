import Thorn.LexicalRuns
import Thorn.ReworkedFiles

set_option autoImplicit false

namespace Thorn.FatImage.Image
open Paths LinkedChain
variable {I J : Image} {names : List Str} {q j f k : ℕ}

theorem Named.back (hw : J.WellFormed) (hkeep : ∀ names, I.Named names k → J.Named names k) (hlive : I.Live k)
    (h : J.Named names k) : I.Named names k := by
  obtain ⟨names', hk⟩ := hlive.named
  rwa [h.unique hw (hkeep _ hk)]

theorem Added.named_iff (hw : I.WellFormed) (h : I.Added J q j f) {dir : List Str} (hq : I.Named dir q) :
    J.Named names k ↔ I.Named names k ∨ names = dir ++ [(J.entry j).name.toStr] ∧ k = j := by
  have hnew : J.Named (dir ++ [(J.entry j).name.toStr]) j := (h.named hw hq).child (h.child_new hw)
  constructor
  · intro hk
    rcases (h.live_iff hw k).mp hk.live with hlive | rfl
    · exact .inl (hk.back (h.wellFormed hw) (fun _ => h.named hw) hlive)
    · exact .inr ⟨hk.unique (h.wellFormed hw) hnew, rfl⟩
  · rintro (hk | ⟨rfl, rfl⟩)
    · exact h.named hw hk
    · exact hnew

theorem Freed.named_iff (hw : I.WellFormed) (h : I.Freed J j) (hj : I.Live j) (hr : j ≠ I.rootSlot)
    (hleaf : ∀ k, ¬ I.Child j k) : J.Named names k ↔ I.Named names k ∧ k ≠ j := by
  have hR := h.rearranged hw hj hr hleaf
  constructor
  · intro hk
    obtain ⟨hlive, hne⟩ := (hR.live_iff hw k).mp hk.live
    exact ⟨hk.back (hR.wellFormed hw) (fun _ hk' => h.named hw hj hr hleaf hk' hne) hlive, hne⟩
  · rintro ⟨hk, hne⟩
    exact h.named hw hj hr hleaf hk hne

end Thorn.FatImage.Image

namespace Thorn.FatDriver
open ByteStore Paths FatTypes FatOperations FatImage LinkedChain NamedStore

/-- What the entry in slot `k` is to a user. -/
def Driver.node (s : Fs) (k : ℕ) : NamedStore.Node :=
  if (s.entry k).isDirectory then .directory else .file (s.content (s.entry k))

open Classical in
noncomputable def Driver.view (s : Fs) : Store (List Str) := fun names =>
  if h : ∃ k, s.image.Named names k then some (s.node h.choose) else none

section Views
variable {s t : Fs} {k : ℕ} {x names : List Str}

theorem node_file (h : (s.entry k).isDirectory = false) : s.node k = .file (s.content (s.entry k)) := by
  rw [Driver.node, h]
  rfl

theorem node_directory (h : (s.entry k).isDirectory) : s.node k = .directory := if_pos h

theorem node_kept (hdir : (t.entry k).isDirectory = (s.entry k).isDirectory)
    (hfile : (s.entry k).isDirectory = false → FileKept s t k) : t.node k = s.node k := by
  rw [Driver.node, Driver.node, hdir]
  split_ifs with hd
  · rfl
  · rw [(hfile (Bool.eq_false_iff.mpr hd)).content]

theorem view_some (hu : s.image.UniqueNames) (hk : s.image.Named x k) : s.view x = some (s.node k) := by
  have hex : ∃ k, s.image.Named x k := ⟨k, hk⟩
  rw [Driver.view, dif_pos hex, hu.named_eq hex.choose_spec hk]

theorem view_none (h : ∀ k, ¬ s.image.Named x k) : s.view x = none := dif_neg (not_exists.mpr h)

theorem view_load (s : Fs) : s.load.view = s.view := rfl

theorem view_kept (hs : s.image.UniqueNames) (ht : t.image.UniqueNames)
    (hnamed : ∀ k, t.image.Named names k ↔ s.image.Named names k)
    (hnode : ∀ k, s.image.Named names k → t.node k = s.node k) : t.view names = s.view names := by
  by_cases h : ∃ k, s.image.Named names k
  · obtain ⟨k, hk⟩ := h
    rw [view_some hs hk, view_some ht ((hnamed k).mpr hk), hnode k hk]
  · have hnone := not_exists.mp h
    rw [view_none hnone, view_none fun k hk => hnone k ((hnamed k).mp hk)]

theorem view_update {node : Option NamedStore.Node} (hx : t.view x = node)
    (h : ∀ names, names ≠ x → t.view names = s.view names) : t.view = Function.update s.view x node := by
  funext names
  by_cases hn : names = x
  · rw [hn, Function.update_self, hx]
  · rw [Function.update_of_ne hn, h names hn]

end Views

section Reworked
variable {s t : Fs} {k : ℕ} {c : List ℕ} {x : List Str}

theorem Reworked.view (hs : Orderly s) (h : Reworked s t k c) (hx : s.image.Named x k)
    (hfile : (s.entry k).isDirectory = false) :
    t.view = Function.update s.view x (some (.file (t.content (t.entry k)))) := by
  have hw := hs.wf.image
  have hrecut := h.recut hs.wf hx.live hfile
  have hnamed : ∀ {names q}, t.image.Named names q ↔ s.image.Named names q := hrecut.named_iff hw hs.tidy h.name
  have hut := (h.orderly hs hx.live hfile).unique
  apply view_update
  · rw [view_some hut (hnamed.mpr hx), node_file h.still]
  · intro names hn
    refine view_kept hs.unique hut (fun q => hnamed) fun q hq => ?_
    have hne : q ≠ k := fun he => hn (hq.unique hw (he ▸ hx))
    exact node_kept (hrecut.isDirectory_live hw hq.live) fun hf => h.kept hs.wf hx.live hfile hq.live hf hne

theorem Reworked.treelike (hs : Treelike s) (h : Reworked s.load t k c) (hk : s.image.Live k)
    (hfile : (s.entry k).isDirectory = false) : Treelike t := by
  have hord := h.orderly hs.orderly hk hfile
  have hrecut := h.recut hs.orderly.wf hk hfile
  exact ⟨hord.wf, .of_load hord.wf hord.tidy hord.unique,
    hrecut.copied hs.orderly.wf.image hs.orderly.tidy hs.copied⟩

end Reworked

section Removed
variable {s : Fs} {k : ℕ} {x : List Str}

theorem Treelike.removed (h : Treelike s) (hk : s.image.Live k) (hfile : (s.entry k).isDirectory = false) :
    Treelike (s.load.removed k) := by
  have hs := h.orderly
  have hw := hs.wf.image
  have hr := hw.ne_root_of_file hfile
  have hleaf := Image.leaf_of_file (I := s.load.image) hfile
  have hfreed := removed_freed hs.wf hk hr
  have hwf := (removed_wellFormed hs.wf hs.root hk hfile hr).1
  exact ⟨hwf, .of_load hwf (hfreed.tidy hw hk hr hleaf hs.tidy) (hfreed.uniqueNames hw hk hr hleaf hs.unique),
    hfreed.copied hw hk hr hleaf h.copied⟩

theorem removed_view (hs : Orderly s) (hx : s.image.Named x k) (hfile : (s.entry k).isDirectory = false) :
    (s.removed k).view = Function.update s.view x none := by
  have hw := hs.wf.image
  have hk := hx.live
  have hr := hw.ne_root_of_file hfile
  have hleaf := Image.leaf_of_file (I := s.image) hfile
  have hfreed := removed_freed hs.wf hk hr
  have hut := hfreed.uniqueNames hw hk hr hleaf hs.unique
  have hnamed : ∀ {names q}, (s.removed k).image.Named names q ↔ s.image.Named names q ∧ q ≠ k :=
    hfreed.named_iff hw hk hr hleaf
  apply view_update
  · refine view_none fun q hq => ?_
    obtain ⟨hq, hne⟩ := hnamed.mp hq
    exact hne (hs.unique.named_eq hq hx)
  · intro names hn
    have hne : ∀ q, s.image.Named names q → q ≠ k := fun q hq he => hn (hq.unique hw (he ▸ hx))
    refine view_kept hs.unique hut (fun q => ?_) fun q hq => ?_
    · exact hnamed.trans (and_iff_left_of_imp (hne q))
    · have hentry := hfreed.entry_live hw hq.live (hne q hq)
      exact node_kept (congrArg DirEntry.isDirectory hentry) fun hf =>
        Spared.kept hs.wf hq.live (.freed hs.wf hq.live (hs.wf.image.live_data hk)
          (hs.wf.image.readable hk) (foreign_of_live hs.wf hq.live hf hk (hne q hq).symm) _)

end Removed

section Created
variable {s v t u : Fs} {path name : Str} {dir : List Str} {length p k f : ℕ} {fs : List ℕ} {type : FileType}
  {r : NewFileResult} {e : DirEntry}

theorem Vacant.filled_entry (h : Vacant s v p k) (hfree : s.freeList = f :: fs)
    (ht : Filled v t k f e) {q : ℕ} (hq : v.image.Live q) : t.entry q = v.entry q := by
  have hw := h.sound.wf.image
  obtain ⟨o, ho, -, hmem⟩ := hw.live_mem hq
  refine ht.entry q (hw.live_data hq) ?_ ?_
  · rintro rfl
    have hvacant : v.image.free (v.image.entry q) = true := h.vacant
    rw [(hw.owns q hq).not_free] at hvacant
    cases hvacant
  · intro he
    have hf := mem_freeList.mp (hfree ▸ List.mem_cons_self : f ∈ s.freeList)
    exact (hw.owns o ho).fat_ne_zero f (he ▸ hw.slot_mem ho hmem) ((h.fat f hf.1).trans hf.2)

theorem unallocated_freedSlot (h : Sound s) (hlive : s.image.Live p) (ht : Target s path p f fs)
    (hk : (s.allocated f).freedSlot p = none) : s.freedSlot p = none := by
  have hnone := (freedSlot_reuses h.wf hlive ht.free).mp hk
  rw [freedSlot_live h.wf hlive, List.find?_eq_none]
  intro i hi hfree
  have hzero : (s.entry i).start = 0 := h.tidy p hlive ht.directory i hi hfree
  refine hnone ⟨i, hi, hfree, ?_⟩
  have hf0 := (h.wf.free_data (ht.free ▸ List.mem_cons_self)).1
  rw [hzero, firstFree_cons h.wf.geometry ht.free]
  omega

theorem created_kinds (h : Sound s) (hp : s.lookupParent path = .ok p) (hlive : s.image.Live p)
    (hplace : s.freedSlot p ≠ none ∨ ¬ s.FullDir p) (hc : Created s path length type r u) (hneg : ¬ r.status < 0)
    {q : ℕ} (hq : s.image.Live q) : (u.entry q).isDirectory = (s.entry q).isDirectory := by
  have hg := h.wf.geometry
  cases hc with
  | lost hlost => exact absurd (walkDirs_error hlost) hneg
  | long => exact absurd (show (-ENAMETOOLONG : ℤ) < 0 by decide) hneg
  | full => exact absurd (show (-ENOSPC : ℤ) < 0 by decide) hneg
  | astray => exact absurd (show (-ENOTDIR : ℤ) < 0 by decide) hneg
  | crowded => exact absurd (show (-ENOSPC : ℤ) < 0 by decide) hneg
  | stuck => exact absurd (show (-ENOSPC : ℤ) < 0 by decide) hneg
  | @recycled p' f k fs ht hk =>
    obtain rfl := Except.ok.inj (ht.parent.symm.trans hp)
    have hf := (mem_freeList.mp (ht.free ▸ List.mem_cons_self : f ∈ s.freeList)).1
    have hf0 := (h.wf.free_data (ht.free ▸ List.mem_cons_self)).1
    have hmem := allocated_freedSlot h.wf ht.free hlive hk
    have hslot : s.IsSlot k := h.wf.image.slot_data hlive (List.mem_of_mem_drop hmem)
    have hfree : s.image.free (s.entry k) = true := by
      have hfound := List.find?_some hk
      rw [allocated_entry hg hf hslot, allocated_free hg hf (by omega), Bool.and_eq_true] at hfound
      exact hfound.1
    have hfilled := placed_freed h hlive ⟨hslot, child_behind h.wf hlive hmem⟩ ht.free
      (ownEntry_start hg path length type hf)
    exact congrArg DirEntry.isDirectory
      ((vacant_freed h hlive ht.directory hmem hfree).filled_entry ht.free hfilled hq)
  | @appended p' f fs ht hk hroom hlen =>
    obtain rfl := Except.ok.inj (ht.parent.symm.trans hp)
    have hf := (mem_freeList.mp (ht.free ▸ List.mem_cons_self : f ∈ s.freeList)).1
    have hvacant := vacant_grown h hlive ht.directory hroom
    have hfilled := placed_grown h hlive (endSlot_takes h.wf hlive ht.directory hroom)
      (endSlot_ne h.wf hlive ht.directory hroom) ht.free (ownEntry_start hg path length type hf)
    have hgrown := entered_edit h.wf h.tidy hlive ht.directory hroom zeroEntry_start
    have hentry := hvacant.filled_entry ht.free hfilled ((hvacant.lives q).mpr hq)
    exact (congrArg DirEntry.isDirectory hentry).trans (hgrown.alike h.wf.image hlive ht.directory hq).2.2.1
  | @expanded p' f g fs ht hk hfull henough =>
    obtain rfl := Except.ok.inj (ht.parent.symm.trans hp)
    exact absurd hplace (not_or.mpr ⟨not_not.mpr (unallocated_freedSlot h hlive ht hk), not_not.mpr hfull⟩)

theorem Housed.view (hh : Housed s v u path length type p k f fs r) (hs : Orderly s) (hp : s.image.Named dir p)
    (ht : Filled v t k f e) (hsmall : e.len ≤ sizeofDirEntry)
    (hempty : e.isDirectory → e.len = sizeofDirEntry ∧ (t.entry (f * v.image.epb)).name.toStr = dotDotName)
    (hnew : ∀ k, ¬ s.image.Named (dir ++ [e.name.toStr]) k)
    (hkinds : ∀ q, s.image.Live q → (u.entry q).isDirectory = (s.entry q).isDirectory)
    (hkept : ∀ q, s.image.Live q → (s.entry q).isDirectory = false → FileKept s t q) :
    t.view = Function.update s.view (dir ++ [e.name.toStr]) (some (t.node k)) := by
  have hvw := hh.vacant.sound.wf
  have hsize := blocksFor_small hvw.geometry hsmall
  have hadd := hh.vacant.added hh.target.free hs.wf ht hsize hempty
  have hut :=
    (hh.vacant.filled hs.unique hh.target.free hs.wf ht hsize hempty (not_listed hp hnew)).orderly.unique
  have hback : ∀ {names q}, v.image.Named names q ↔ s.image.Named names q := fun {_ q} =>
    ⟨fun hq => hq.back hvw.image (fun names => hh.vacant.named names q) ((hh.vacant.lives q).mp hq.live),
      hh.vacant.named _ _⟩
  have hname : (t.image.entry k).name.toStr = e.name.toStr := congrArg (·.name.toStr) ht.new
  have hnamed : ∀ {names q}, t.image.Named names q ↔
      s.image.Named names q ∨ names = dir ++ [e.name.toStr] ∧ q = k := fun {_ _} => by
    rw [hadd.named_iff hvw.image (hback.mpr hp), hback, hname]
  apply view_update
  · exact view_some hut (hnamed.mpr (.inr ⟨rfl, rfl⟩))
  · intro names hn
    refine view_kept hs.unique hut (fun q => ?_) fun q hq => ?_
    · exact hnamed.trans (or_iff_left fun h => hn h.1)
    · have hlive := (hh.vacant.lives q).mpr hq.live
      have hkind : (t.entry q).isDirectory = (s.entry q).isDirectory := by
        rw [hh.vacant.filled_entry hh.target.free ht hlive, ← hkinds q hq.live,
          hh.vacant.filled_entry hh.target.free hh.filled hlive]
      exact node_kept hkind (hkept q hq.live)

end Created

end Thorn.FatDriver

import Thorn.RenameMoves

set_option autoImplicit false

namespace Thorn.FatDriver
open ByteStore Paths FatTypes FatOperations FatImage LinkedChain

/-- A loaded file system whose directories hold each name once and keep no block in a freed slot,
and two paths without `.` and `..`, the first of which is there. -/
structure Renaming (s : Fs) (srcpath destpath : Str) (k : ℕ) : Prop where
  wf : WellFormed s
  tidy : s.image.Tidy
  unique : s.image.UniqueNames
  root : s.root = s.entry s.image.rootSlot
  srcDots : NoDots srcpath
  destDots : NoDots destpath
  source : s.lookup srcpath = .ok k

namespace Renaming
variable {s : Fs} {srcpath destpath : Str} {p d k : ℕ}

theorem named (h : Renaming s srcpath destpath k) {path : Str} (hp : NoDots path) {i : ℕ}
    (hi : s.lookup path = .ok i) : s.image.Named (pathNames path) i := by
  have hn := Image.Named.root.resolve (h.wf.image.avoidsCopies .root hp.1 hp.2) hi
  rwa [List.nil_append] at hn

theorem parent_named (h : Renaming s srcpath destpath k) (hp : s.lookupParent destpath = .ok p) :
    s.image.Named (pathNames destpath).dropLast p := by
  have hd : Image.Dotless (pathNames destpath).dropLast :=
    ⟨fun hm => h.destDots.1 (List.dropLast_subset _ hm), fun hm => h.destDots.2 (List.dropLast_subset _ hm)⟩
  have hn := Image.Named.root.walkDirs (h.wf.image.avoidsCopies .root hd.1 hd.2) hp
  rwa [List.nil_append] at hn

theorem same_names (h : Renaming s srcpath destpath k) (hd : s.lookup destpath = .ok k) :
    pathNames destpath = pathNames srcpath := (h.named h.destDots hd).unique h.wf.image (h.named h.srcDots h.source)

theorem source_ne_root (h : Renaming s srcpath destpath k) (hout : ¬ pathNames srcpath <+: pathNames destpath) :
    k ≠ s.image.rootSlot := by
  rintro rfl
  have hn := (h.named h.srcDots h.source).unique h.wf.image .root
  exact hout (hn ▸ List.nil_prefix)

theorem clear_parent (h : Renaming s srcpath destpath k) (hout : ¬ pathNames srcpath <+: pathNames destpath) :
    s.image.Clear k (pathNames destpath).dropLast := fun pre hpre hn => by
  rw [hn.unique h.wf.image (h.named h.srcDots h.source)] at hpre
  exact hout (hpre.trans (List.dropLast_prefix _))

theorem above (h : Renaming s srcpath destpath k) (hout : ¬ pathNames srcpath <+: pathNames destpath)
    (hdest : ∀ i, s.lookup destpath = .ok i → (s.entry i).isDirectory = false) :
    ¬ pathNames destpath <+: pathNames srcpath := by
  rintro ⟨rest, hrest⟩
  by_cases hne : rest = []
  · rw [hne, List.append_nil] at hrest
    exact hout (hrest ▸ List.prefix_rfl)
  · have hsource := h.source
    rw [Driver.lookup, ← hrest] at hsource
    obtain ⟨q, hq, hw⟩ := Image.resolve_prefix hsource hne
    have hfile := hdest q hq
    have hdir : (s.entry q).isDirectory = true := (Image.walkable_iff.mp hw).2
    rw [hdir] at hfile
    cases hfile

theorem holder (h : Renaming s srcpath destpath k) (hout : ¬ pathNames srcpath <+: pathNames destpath)
    (hp : s.lookupParent destpath = .ok p) :
    ∃ q, s.image.Live q ∧ (s.entry q).isDirectory ∧ p ∈ s.image.slots q ∧ q ≠ k := by
  have hclear := h.clear_parent hout
  have hpn := h.parent_named hp
  generalize (pathNames destpath).dropLast = names at hpn hclear
  cases hpn with
  | root =>
    have hcopies := h.wf.image.copies_le .root h.wf.image.root_directory
    have hpos := s.image.copies_pos s.image.rootSlot
    refine ⟨_, .root, h.wf.image.root_directory, ?_, (h.source_ne_root hout).symm⟩
    exact Image.mem_slotsIn.mpr ⟨0, by omega, h.wf.image.root_slotAt h.wf.image.epb_pos⟩
  | child hq hc => exact ⟨_, hq.live, hc.1, hc.mem_slots, fun he => hclear _ (List.prefix_append _ _) (he ▸ hq)⟩

section Replaced

theorem dest_ne_root (h : Renaming s srcpath destpath k) (hfile : (s.entry d).isDirectory = false) :
    d ≠ s.image.rootSlot := by
  rintro rfl
  have hdir : (s.entry s.image.rootSlot).isDirectory = true := h.wf.image.root_directory
  rw [hdir] at hfile
  cases hfile

theorem leaf (hfile : (s.entry d).isDirectory = false) : ∀ i, ¬ s.image.Child d i := fun i hi => by
  have hdir : (s.entry d).isDirectory = true := hi.1
  rw [hdir] at hfile
  cases hfile

theorem dest_parent (h : Renaming s srcpath destpath k) (hd : s.lookup destpath = .ok d)
    (hfile : (s.entry d).isDirectory = false) :
    ∃ p, s.lookupParent destpath = .ok p ∧ s.image.Child p d ∧ (s.entry d).name.toStr = lastName destpath := by
  have hne : pathNames destpath ≠ [] := fun he => by
    rw [Driver.lookup, he] at hd
    exact h.dest_ne_root hfile (Except.ok.inj hd).symm
  have hdot : Image.Dotless (pathNames destpath) := h.destDots
  rw [Driver.lookup, pathNames_last hne, Image.resolve_concat] at hd
  rw [pathNames_last hne] at hdot
  rw [Driver.lookupParent]
  cases hp : s.image.walkDirs s.image.rootSlot (pathNames destpath).dropLast with
  | error status =>
    rw [hp] at hd
    cases hd
  | ok p =>
    rw [hp, Image.lookIn] at hd
    split_ifs at hd with hw
    cases hl : s.image.findSlot p (lastName destpath) with
    | none =>
      rw [hl] at hd
      cases hd
    | some l =>
      rw [hl] at hd
      obtain rfl : l = d := Except.ok.inj hd
      have hp' := (h.parent_named hp).live
      exact ⟨p, rfl, h.wf.image.findSlot_child hp' hw (hdot.last List.prefix_rfl) hl,
        (Image.findSlot_some hl).2.1⟩

theorem freed (h : Renaming s srcpath destpath k) (hd : s.lookup destpath = .ok d)
    (hfile : (s.entry d).isDirectory = false) : s.image.Freed (s.removed d).image d :=
  removed_freed h.wf (h.named h.destDots hd).live (h.dest_ne_root hfile)

theorem removed_lookup (h : Renaming s srcpath destpath k) (hd : s.lookup destpath = .ok d)
    (hfile : (s.entry d).isDirectory = false) {path : Str} (hdot : NoDots path)
    (hno : ¬ pathNames destpath <+: pathNames path) : (s.removed d).lookup path = s.lookup path := by
  have hdn := h.named h.destDots hd
  have hclear : s.image.Clear d (pathNames path) := fun pre hpre hn => by
    rw [hn.unique h.wf.image hdn] at hpre
    exact hno hpre
  have hfinds :=
    (h.freed hd hfile).findsAlike h.wf.image hdn.live (h.dest_ne_root hfile) (leaf hfile) h.unique hdot hclear
  rw [Driver.lookup, Driver.lookup, (removed_frame s d).rootSlot]
  exact hfinds.resolve h.wf.image hdot

theorem replaced_ready (h : Renaming s srcpath destpath k) (hout : ¬ pathNames srcpath <+: pathNames destpath)
    (hd : s.lookup destpath = .ok d) (hfile : (s.entry d).isDirectory = false) :
    ∃ p, Ready (s.removed d) (s.removed d) srcpath destpath p d k := by
  obtain ⟨p, hp, hc, -⟩ := h.dest_parent hd hfile
  have hdl := (h.named h.destDots hd).live
  have hr := h.dest_ne_root hfile
  have hfreed := h.freed hd hfile
  have hpn := h.parent_named hp
  have hpd : p ≠ d := by
    rintro rfl
    exact leaf hfile _ hc
  have habove := h.above hout fun i hi => by rwa [← Except.ok.inj (hd.symm.trans hi)]
  obtain ⟨hwf, hroot⟩ := removed_wellFormed h.wf h.root hdl hfile hr
  have hR := hfreed.rearranged h.wf.image hdl hr (leaf hfile)
  have hent : (s.removed d).entry p = s.entry p := hfreed.entry_live h.wf.image hpn.live hpd
  have hslots : (s.removed d).image.slots p = s.image.slots p :=
    hR.slots h.wf.image ⟨hpn.live, hpd⟩ (congrArg DirEntry.len hent)
  exact ⟨p, {
    wf := hwf
    tidy := hfreed.tidy h.wf.image hdl hr (leaf hfile) h.tidy
    unique := hfreed.uniqueNames h.wf.image hdl hr (leaf hfile) h.unique
    root := hroot
    srcDots := h.srcDots
    destDots := h.destDots
    source := (h.removed_lookup hd hfile h.srcDots habove).trans h.source
    absent := by
      rw [Driver.lookup, (removed_frame s d).rootSlot]
      exact hfreed.resolve_gone h.wf.image hdl hr (leaf hfile) h.unique h.destDots hd
    parent := by
      have hne : pathNames destpath ≠ [] := fun he => habove (he ▸ List.nil_prefix)
      have hdot : Image.Dotless (pathNames destpath) := h.destDots
      have hdn := h.named h.destDots hd
      rw [pathNames_last hne] at hdot hdn
      have hfinds := hfreed.findsAlike h.wf.image hdl hr (leaf hfile) h.unique hdot.take fun pre hpre =>
        hdn.not_above h.wf.image hpre
      rw [Driver.lookupParent, (removed_frame s d).rootSlot, hfinds.walkDirs h.wf.image hdot.take]
      exact hp
    directory := by
      rw [hent]
      exact hc.1
    slot := by
      rw [hslots, hfreed.shape.copies]
      exact hc.2.1
    vacant := free_of_start hfreed.gone
    only := .refl _ _
    outside := hout
    above := habove }⟩

theorem removed_block (h : Renaming s srcpath destpath k) (hd : s.lookup destpath = .ok d) {b : ℕ}
    (hb : s.image.IsData b) (hne : d / s.image.epb ≠ b) : (s.removed d).block b = s.block b := by
  have hdl := (h.named h.destDots hd).live
  have honly := cleared_only h.wf hdl
  rw [Driver.removed, storeEntry_block (honly.frame.geometry h.wf.geometry)
    (honly.frame.isSlot.mpr (h.wf.image.live_data hdl)) _ (by rwa [honly.frame.epb])]
  rw [Driver.block, Driver.block, honly.frame.superblock]
  exact honly.block h.wf.geometry hb

theorem removed_content (h : Renaming s srcpath destpath k) (hd : s.lookup destpath = .ok d)
    (hfile : (s.entry d).isDirectory = false) {i : ℕ} (hi : s.image.Live i) (hid : i ≠ d)
    (hp : ∀ p, s.image.Child p d → p ≠ i) : (s.removed d).content (s.entry i) = s.content (s.entry i) := by
  have hw := h.wf.image
  have hdl := (h.named h.destDots hd).live
  have hr := h.dest_ne_root hfile
  have hfreed := h.freed hd hfile
  obtain ⟨q, hq, hqc⟩ := hdl.parent hr
  have hR := hfreed.rearranged hw hdl hr (leaf hfile)
  have hent : (s.removed d).image.entry i = s.entry i := hfreed.entry_live hw hi hid
  have howns := (hR.catalogue hw).owns i ⟨hi, hid⟩
  rw [hent] at howns
  refine content_same (removed_frame s d).bs (hw.owns i hi) howns rfl fun b hb => ?_
  exact h.removed_block hd ((hw.owns i hi).data b hb) (slot_apart hw hq hqc.mem_slots hi (hp q hqc) b hb)

theorem replaced_prepared (h : Renaming s srcpath destpath k)
    (hout : ¬ pathNames srcpath <+: pathNames destpath)
    (hd : s.lookup destpath = .ok d) (hfile : (s.entry d).isDirectory = false) :
    Prepared s (s.removed d) destpath k := by
  have hw := h.wf.image
  have hdl := (h.named h.destDots hd).live
  have hr := h.dest_ne_root hfile
  have hfreed := h.freed hd hfile
  have hR := hfreed.rearranged hw hdl hr (leaf hfile)
  have hkl := (h.named h.srcDots h.source).live
  have hkd : k ≠ d := by
    rintro rfl
    exact hout ((h.same_names hd).symm ▸ List.prefix_rfl)
  have hlive : ∀ i, (s.removed d).image.Live i → s.image.Live i ∧ i ≠ d := fun i hi => (hR.live_iff hw i).mp hi
  obtain ⟨p, hp, hc, -⟩ := h.dest_parent hd hfile
  have hpn := h.parent_named hp
  exact {
    frame := removed_frame s d
    lookup := fun path hdot hno => h.removed_lookup hd hfile hdot hno
    entry := fun i hi => .inl (hfreed.entry_live hw (hlive i hi).1 (hlive i hi).2)
    source := hfreed.entry_live hw hkl hkd
    content := h.removed_content hd hfile hkl hkd fun q hq => by
      rintro rfl
      have hqk := hw.child_unique hkl hpn.live hq hc
      exact h.clear_parent hout _ List.prefix_rfl (hqk ▸ hpn)
    files := fun i hi hif => h.removed_content hd hfile (hlive i hi).1 (hlive i hi).2 fun q hq => by
      rintro rfl
      exact leaf hif _ hq
    released := fun d' hd' b hb => by
      obtain rfl : d = d' := Except.ok.inj (hd.symm.trans hd')
      rw [removed_fat h.wf hdl (chain_lt h.wf hdl b hb), if_pos hb] }

end Replaced

section Placed
variable {newfile : DirEntry}

theorem recycled_ready (h : Renaming s srcpath destpath k) (hout : ¬ pathNames srcpath <+: pathNames destpath)
    (hd : s.lookup destpath = .error (-ENOENT)) (ht : Home s destpath p) {j : ℕ} (hj : s.freedSlot p = some j)
    (hn : newfile.start = 0) : Ready s (s.entered p j newfile false true) srcpath destpath p j k where
  wf := h.wf
  tidy := h.tidy
  unique := h.unique
  root := h.root
  srcDots := h.srcDots
  destDots := h.destDots
  source := h.source
  absent := hd
  parent := ht.parent
  directory := ht.directory
  slot := freedSlot_mem h.wf (h.parent_named ht.parent).live hj
  vacant := by
    have hfree := List.find?_some hj
    exact hfree
  only := stored_only h.wf (freedSlot_takes h.wf (h.parent_named ht.parent).live hj) hn
  outside := hout
  above := h.above hout fun i hi => by
    rw [hd] at hi
    cases hi

theorem recycled_prepared (hd : s.lookup destpath = .error (-ENOENT)) : Prepared s s destpath k where
  frame := .refl s
  lookup _ _ _ := rfl
  entry _ _ := .inl rfl
  source := rfl
  content := rfl
  files _ _ _ := rfl
  released d hd' := by
    rw [hd] at hd'
    cases hd'

theorem grown (h : Renaming s srcpath destpath k) (ht : Home s destpath p) (hroom : ¬ s.FullDir p)
    (hn : newfile.start = 0) :
    s.image.Grown (s.entered p (s.endSlot p) newfile true true).image p (s.endSlot p) :=
  entered_edit h.wf h.tidy (h.parent_named ht.parent).live ht.directory hroom hn

theorem grown_lookup (h : Renaming s srcpath destpath k) (ht : Home s destpath p) (hroom : ¬ s.FullDir p)
    (hn : newfile.start = 0) {path : Str} (hdot : NoDots path) :
    (s.entered p (s.endSlot p) newfile true true).lookup path = s.lookup path := by
  have hfinds :=
    (h.grown ht hroom hn).findsAlike h.wf.image (h.parent_named ht.parent).live ht.directory h.unique hdot
  rw [Driver.lookup, Driver.lookup, (SameFrame.entered s p _ newfile true true).rootSlot]
  exact hfinds.resolve h.wf.image hdot

theorem appended_ready (h : Renaming s srcpath destpath k) (hout : ¬ pathNames srcpath <+: pathNames destpath)
    (hd : s.lookup destpath = .error (-ENOENT)) (ht : Home s destpath p) (hroom : ¬ s.FullDir p)
    (hn : newfile.start = 0) :
    Ready (s.entered p (s.endSlot p) newfile true true) (s.entered p (s.endSlot p) newfile true true) srcpath destpath p
      (s.endSlot p) k := by
  have hp := (h.parent_named ht.parent).live
  have hg := h.grown ht hroom hn
  have hdir : (s.image.entry p).isDirectory := ht.directory
  have habove := h.above hout fun i hi => by
    rw [hd] at hi
    cases hi
  have hne : pathNames destpath ≠ [] := fun he => habove (he ▸ List.nil_prefix)
  have hdot : Image.Dotless (pathNames destpath) := h.destDots
  rw [pathNames_last hne] at hdot
  exact {
    wf := entered_wellFormed h.wf h.tidy h.root hp hdir hroom hn
    tidy := hg.tidy h.wf.image hp hdir h.tidy
    unique := hg.uniqueNames h.wf.image hp hdir h.unique
    root := entered_root h.wf h.root hp hdir hroom hn
    srcDots := h.srcDots
    destDots := h.destDots
    source := (h.grown_lookup ht hroom hn h.srcDots).trans h.source
    absent := (h.grown_lookup ht hroom hn h.destDots).trans hd
    parent := by
      have hfinds := hg.findsAlike h.wf.image hp hdir h.unique hdot.take
      rw [Driver.lookupParent, (SameFrame.entered s p _ newfile true true).rootSlot,
        hfinds.walkDirs h.wf.image hdot.take]
      exact ht.parent
    directory := (hg.alike h.wf.image hp hdir hp).2.2.1.trans hdir
    slot := by
      have hle : s.image.copies p ≤ (s.image.slots p).length := by
        rw [Image.slots, Image.slotsIn, List.length_map, List.length_range]
        exact h.wf.image.copies_le hp hdir
      rw [hg.slots h.wf.image hp hdir hp, if_pos rfl, hg.shape.copies, List.drop_append_of_le_length hle]
      simp
    vacant := free_of_start hg.empty
    only := .refl _ _
    outside := hout
    above := habove }

theorem grown_block (h : Renaming s srcpath destpath k) (ht : Home s destpath p) (hroom : ¬ s.FullDir p) {b : ℕ}
    (hj : s.endSlot p / s.image.epb ≠ b) (hpb : p / s.image.epb ≠ b) :
    (s.entered p (s.endSlot p) newfile true true).block b = s.block b := by
  have hp := (h.parent_named ht.parent).live
  have hframe := SameFrame.storeEntry s newfile (320 * s.endSlot p)
  rw [entered_grown, storeEntry_block (hframe.geometry h.wf.geometry)
    (hframe.isSlot.mpr (h.wf.image.live_data hp)) _
    (by rwa [hframe.epb]), storeEntry_block h.wf.geometry (endSlot_takes h.wf hp ht.directory hroom).slot _ hj]

theorem grown_content (h : Renaming s srcpath destpath k) (ht : Home s destpath p) (hroom : ¬ s.FullDir p)
    (hn : newfile.start = 0) {i : ℕ} (hi : s.image.Live i) (hip : p ≠ i)
    (hq : ∃ q, s.image.Live q ∧ p ∈ s.image.slots q ∧ q ≠ i) :
    (s.entered p (s.endSlot p) newfile true true).content (s.entry i) = s.content (s.entry i) := by
  have hw := h.wf.image
  have hp := (h.parent_named ht.parent).live
  have hg := h.grown ht hroom hn
  have hR := hg.rearranged hw hp ht.directory
  have hent : (s.entered p (s.endSlot p) newfile true true).image.entry i = s.entry i :=
    hg.entry_live hw hp ht.directory hi hip.symm
  have howns := (hR.catalogue hw).owns i hi
  rw [hent] at howns
  obtain ⟨q, hq, hpq, hqi⟩ := hq
  have hend := hw.end_lt hp ht.directory (by rw [h.wf.geometry.image_bs]; exact hroom)
  refine content_same (SameFrame.entered s p _ newfile true true).bs (hw.owns i hi) howns rfl fun b hb => ?_
  refine h.grown_block ht hroom ?_ (slot_apart hw hq hpq hi hqi b hb)
  rintro rfl
  exact hw.disjoint p i hp hi hip (Image.slotAt_mem hw.epb_pos _ _ hend) hb

theorem appended_prepared (h : Renaming s srcpath destpath k)
    (hout : ¬ pathNames srcpath <+: pathNames destpath)
    (hd : s.lookup destpath = .error (-ENOENT)) (ht : Home s destpath p) (hroom : ¬ s.FullDir p)
    (hn : newfile.start = 0) : Prepared s (s.entered p (s.endSlot p) newfile true true) destpath k := by
  have hw := h.wf.image
  have hpn := h.parent_named ht.parent
  have hg := h.grown ht hroom hn
  have hR := hg.rearranged hw hpn.live ht.directory
  have hkl := (h.named h.srcDots h.source).live
  have hpk : p ≠ k := fun he => h.clear_parent hout _ List.prefix_rfl (he ▸ hpn)
  obtain ⟨q, hq, hqdir, hpq, hqk⟩ := h.holder hout ht.parent
  have hne : ∀ {i q}, (s.entry i).isDirectory = false → (s.entry q).isDirectory → q ≠ i := by
    rintro i q hfile hdir rfl
    rw [hfile] at hdir
    cases hdir
  exact {
    frame := .entered s p _ newfile true true
    lookup := fun path hdot _ => h.grown_lookup ht hroom hn hdot
    entry := fun i hi => by
      by_cases hip : i = p
      · rw [hip]
        exact .inr ⟨ht.directory, _, hg.parent⟩
      · exact .inl (hg.entry_live hw hpn.live ht.directory ((hR.live_iff hw i).mp hi) hip)
    source := hg.entry_live hw hpn.live ht.directory hkl hpk.symm
    content := h.grown_content ht hroom hn hkl hpk ⟨q, hq, hpq, hqk⟩
    files := fun i hi hfile => h.grown_content ht hroom hn ((hR.live_iff hw i).mp hi) (hne hfile ht.directory)
      ⟨q, hq, hpq, hne hfile hqdir⟩
    released := fun d hd' => by
      rw [hd] at hd'
      cases hd' }

end Placed

section Clean

theorem dest_live (h : Renaming s srcpath destpath k) (i : ℕ) (hi : s.lookup destpath = .ok i) :
    s.image.Live i :=
  (h.named h.destDots hi).live

theorem entryMoved (h : Renaming s srcpath destpath k) {t : Fs} {status : ℤ}
    (hr : Renamed s srcpath destpath status t)
    (h0 : status = 0) (hnul : (0 : UInt8) ∉ destpath) (hclean : s.MovesCleanly srcpath destpath) :
    ¬ pathNames srcpath <+: pathNames destpath ∧ EntryMoved s t srcpath destpath k := by
  cases hr with
  | failed hneg => omega
  | @replaced k' d hk hd hfile =>
    obtain rfl : k = k' := Except.ok.inj (h.source.symm.trans hk)
    obtain ⟨hout, hshort, -⟩ := hclean k hk (.inl ⟨d, hd, hfile⟩)
    obtain ⟨p, hready⟩ := h.replaced_ready hout hd hfile
    exact ⟨hout, hready.entryMoved h.wf (h.replaced_prepared hout hd hfile) hshort hnul h.dest_live⟩
  | @placed k' type times r u hk hd ht hst =>
    obtain rfl : k = k' := Except.ok.inj (h.source.symm.trans hk)
    obtain ⟨hout, hshort, hslot⟩ := hclean k hk (.inr ⟨hd, ht.hasPlace hst⟩)
    have hn : ((newEntry 0 type times).setStart 0).start = 0 := by
      rw [DirEntry.setStart_start]
      rfl
    cases ht with
    | lost hneg => exact absurd hneg (not_lt.mpr hst)
    | @recycled p j ht hj =>
      exact ⟨hout, (h.recycled_ready hout hd ht hj hn).entryMoved h.wf
        (recycled_prepared hd) hshort hnul h.dest_live⟩
    | @appended p ht hj hroom =>
      exact ⟨hout, (h.appended_ready hout hd ht hroom hn).entryMoved h.wf
        (h.appended_prepared hout hd ht hroom hn) hshort
        hnul h.dest_live⟩
    | @expanded p f fs ht hj hfull hfree =>
      obtain ⟨q, hq, hroom⟩ := hslot hd
      obtain rfl : p = q := Except.ok.inj (ht.parent.symm.trans hq)
      tauto

theorem renamesOne (h : Renaming s srcpath destpath k) {t : Fs} {status : ℤ}
    (hr : Renamed s srcpath destpath status t)
    (hnul : (0 : UInt8) ∉ destpath) (hclean : s.MovesCleanly srcpath destpath) :
    RenamesOne s srcpath destpath status t := by
  have hstatus : status < 0 ∨ status = 0 := by
    cases hr with
    | failed hneg => exact .inl hneg
    | replaced => exact .inr rfl
    | placed => exact .inr rfl
  rcases hstatus with hneg | h0
  · exact ⟨fun _ _ _ => hneg, fun h0 => by omega, fun h0 => by omega⟩
  · obtain ⟨hout, hmoved⟩ := h.entryMoved hr h0 hnul hclean
    exact {
      refused := fun k' hk' hbad => by
        obtain rfl : k = k' := Except.ok.inj (h.source.symm.trans hk')
        rcases hbad with hroot | ⟨-, hin, -⟩
        · exact absurd hroot (h.source_ne_root hout)
        · exact absurd hin hout
      unchanged := fun _ k' hk' hd => by
        obtain rfl : k = k' := Except.ok.inj (h.source.symm.trans hk')
        exact absurd ((h.same_names hd).symm ▸ List.prefix_rfl) hout
      moved := fun _ k' hk' _ => by
        obtain rfl : k = k' := Except.ok.inj (h.source.symm.trans hk')
        exact hmoved }

end Clean

end Renaming

end Thorn.FatDriver

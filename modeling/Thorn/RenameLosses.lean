import Thorn.RenameOutcomes
import Thorn.FatSample

set_option autoImplicit false

namespace Thorn.FatDriver
open ByteStore Paths FatTypes FatOperations FatImage LinkedChain

/-- What `rename` leaves when the new parent is given a further block: the entry stands in
block `f`, which points back at the parent's last block. -/
structure Stretched (s t : Fs) (p f k : ℕ) (e : DirEntry) : Prop where
  frame : SameFrame s t
  root : t.root = t.entry t.image.rootSlot
  fat : ∀ b < s.blockCount, b ≠ f → t.fat b = s.fat b
  entry : ∀ i, s.IsSlot i → i / s.image.epb ≠ f → t.entry i = if i = k then zeroEntry
    else if i = p then grownEntry (s.entry p) true
    else if p = s.image.rootSlot ∧ i = p + 1 then (grownEntry (s.entry p) true).setName dotDotName else s.entry i

theorem stretched {s : Fs} (hw : WellFormed s) (hroot : s.root = s.entry s.image.rootSlot) {p f k last : ℕ}
    (hp : s.image.Live p) (hf : f ∈ s.freeList) (hk : s.image.Live k) (hkr : k ≠ s.image.rootSlot)
    {newfile : DirEntry} (hn : newfile.start = 0) (e : DirEntry) :
    Stretched s ((s.expanded p last f newfile).moved e (320 * (f * s.image.epb)) k) p f k e := by
  have hg := hw.geometry
  have hfl := (mem_freeList.mp hf).1
  have honly := OnlyTable.putFAT hg (last : ℤ) hfl
  have hframe := honly.frame
  have hg' := hframe.geometry hg
  have hps := hframe.isSlot.mpr (hw.image.live_data hp)
  have hj := hframe.takes (block_takes hw hf)
  have hframe' : SameFrame s (s.expanded p last f newfile) := hframe.trans (.entered _ _ _ _ _ _)
  have hepb : (s.putFAT last f).image.epb = s.image.epb := hframe.epb
  have hpe : (s.putFAT last f).entry p = s.entry p := honly.entry hg (hw.image.live_data hp)
  have hre : (s.putFAT last f).entry s.image.rootSlot = s.entry s.image.rootSlot :=
    honly.entry hg (rootSlot_isSlot hw)
  have hdiv : f * s.image.epb / s.image.epb = f := Nat.mul_div_cancel _ hg.epb_pos
  have hmoved := moved_entry (e := e) (hframe'.geometry hg) (hframe'.isSlot.mpr (block_takes hw hf).slot)
    (hframe'.isSlot.mpr (hw.image.live_data hk))
  have hent : ∀ i, s.IsSlot i → i / s.image.epb ≠ f →
      ((s.expanded p last f newfile).moved e (320 * (f * s.image.epb)) k).entry i =
      if i = k then zeroEntry else if i = p then grownEntry (s.entry p) true
      else if p = s.image.rootSlot ∧ i = p + 1 then (grownEntry (s.entry p) true).setName dotDotName else s.entry i := by
    intro i hi hif
    have hij : i ≠ f * s.image.epb := by
      rintro rfl
      exact hif hdiv
    have hgrown := @grown_entry _ _ _ newfile hg' hps hj i
    rw [hframe.rootSlot, hpe, if_neg hij, honly.entry hg hi] at hgrown
    rw [hmoved, if_neg hij]
    exact congrArg (fun x => if i = k then zeroEntry else x) hgrown
  exact {
    frame := hframe'.trans (moved_frame _ _ _ _)
    root := by
      have hbehind := (block_takes hw hf).behind
      have hrs : (s.putFAT last f).image.rootSlot = s.image.rootSlot := hframe.rootSlot
      have hgrown := @grown_root _ _ _ newfile hg' (by rw [hrs, hre]; exact hroot)
        (by rw [hrs, hre]; exact entry_start_root hw) hps ((parent_place hw hp honly).imp_right And.right) hj
        (zero_start hg' hn)
      change (s.expanded p last f newfile).root =
          (s.expanded p last f newfile).entry (s.expanded p last f newfile).image.rootSlot
        at hgrown
      rw [moved_root, hgrown, (moved_frame _ _ _ _).rootSlot, hframe'.rootSlot, hmoved, if_neg hkr.symm,
        if_neg (by omega)]
    fat := fun b hb hbf => by
      have hput := putFAT_fat hg hfl hb (last : ℤ)
      rw [if_neg hbf] at hput
      rw [moved_fat (hframe'.geometry hg) (hframe'.isSlot.mpr (block_takes hw hf).slot)
        (hframe'.isSlot.mpr (hw.image.live_data hk)) (hframe'.blockCount ▸ hb)]
      exact (grown_fat hg' hps hj (hframe.blockCount ▸ hb)).trans hput
    entry := hent }

namespace Stretched
variable {s t : Fs} {srcpath destpath : Str} {p f k : ℕ} {e : DirEntry}

theorem apart (hw : WellFormed s) (hf : f ∈ s.freeList) {q i : ℕ} (hq : s.image.Live q)
    (hi : i ∈ s.image.slots q) : i / s.image.epb ≠ f := by
  rintro rfl
  exact hw.free_apart hq hf (hw.image.slot_mem hq hi)

theorem fat_chain (hs : Stretched s t p f k e) (hw : WellFormed s) (hf : f ∈ s.freeList) {q : ℕ}
    (hq : s.image.Live q) : ∀ b ∈ s.image.chain q, t.fat b = s.fat b := fun b hb =>
  hs.fat b (chain_lt hw hq b hb) fun he => hw.free_apart hq hf (he ▸ hb)

theorem alike (hs : Stretched s t p f k e) (hw : WellFormed s) (hf : f ∈ s.freeList) {q : ℕ}
    (hq : s.image.Live q)
    (hqk : q ≠ k) : (t.entry q).start = (s.entry q).start ∧ (t.entry q).name = (s.entry q).name ∧
      (t.entry q).isFile = (s.entry q).isFile ∧ (q ≠ p → t.entry q = s.entry q) := by
  obtain ⟨o, ho, -, hm⟩ := hw.image.live_mem hq
  have hsucc : ¬ (p = s.image.rootSlot ∧ q = p + 1) := by
    rintro ⟨rfl, hqr⟩
    obtain ⟨o, ho, hc⟩ := hq.parent (by omega)
    exact hw.image.root_succ_not_child ho hc.2.1 hqr
  rw [hs.entry q (hw.image.live_data hq) (apart hw hf ho hm), if_neg hqk, if_neg hsucc]
  split_ifs with hqp
  · rw [hqp]
    exact ⟨rfl, rfl, rfl, fun h => absurd rfl h⟩
  · exact ⟨rfl, rfl, rfl, fun _ => rfl⟩

theorem owns (hs : Stretched s t p f k e) (hw : WellFormed s) (hf : f ∈ s.freeList) {q : ℕ}
    (hq : s.image.Live q) (hqk : q ≠ k) : t.image.Owns (t.entry q) (s.image.chain q) :=
  hs.frame.shape.owns (hw.image.owns q hq) (hs.alike hw hf hq hqk).1 (hs.fat_chain hw hf hq)

theorem slots (hs : Stretched s t p f k e) (hw : WellFormed s) (hf : f ∈ s.freeList) {q : ℕ}
    (hq : s.image.Live q) (hqk : q ≠ k) (hqp : q ≠ p) : t.image.slots q = s.image.slots q := by
  have hch : t.image.chain q = s.image.chain q := (hs.owns hw hf hq hqk).chainOf_eq
  have hent : t.image.entry q = s.image.entry q := (hs.alike hw hf hq hqk).2.2.2 hqp
  rw [Image.slots, hch, hs.frame.shape.slotsIn, Image.count, hent]
  rfl

theorem found_alike (hs : Stretched s t p f k e) (h : Renaming s srcpath destpath k) (hf : f ∈ s.freeList)
    (hp : s.image.Live p) {q i : ℕ} (hq : s.image.Live q) (hdir : (s.entry q).isDirectory)
    (hi : i ∈ s.image.slots q)
    {name : Str} (hname : Image.Dotless [name]) (hnot : s.image.Child q k → (s.entry k).name.toStr ≠ name) :
    ((t.image.entry i).name.toStr = name && !t.image.free (t.image.entry i)) =
      ((s.image.entry i).name.toStr = name && !s.image.free (s.image.entry i)) := by
  have hw := h.wf
  have hkl := (h.named h.srcDots h.source).live
  have hent := hs.entry i (hw.image.slot_data hq hi) (apart hw hf hq hi)
  change ((t.entry i).name.toStr = name && !t.image.free (t.entry i)) =
    ((s.entry i).name.toStr = name && !s.image.free (s.entry i))
  by_cases hik : i = k
  · subst hik
    rw [hent, if_pos rfl, free_of_start zeroEntry_start]
    by_cases hr : i = s.image.rootSlot
    · have hdot : (s.entry i).name.toStr = dotName := hr ▸ hw.image.dot
      have hne : dotName ≠ name := fun he => hname.1 (he ▸ List.mem_singleton_self _)
      rw [hdot]
      simp [hne]
    · obtain ⟨o, ho, hc⟩ := hkl.parent hr
      obtain rfl := hw.image.slot_parent hq ho hi hc.mem_slots
      simp [hnot hc]
  by_cases hil : s.image.Live i
  · have hfree : t.image.free (t.entry i) = false := (hs.owns hw hf hil hik).not_free
    have hfree' : s.image.free (s.entry i) = false := (hw.image.owns i hil).not_free
    rw [(hs.alike hw hf hil hik).2.1, hfree, hfree']
  have hip : i ≠ p := fun he => hil (he ▸ hp)
  rw [hent, if_neg hik, if_neg hip]
  by_cases hdrop : i ∈ (s.image.slots q).drop (s.image.copies q)
  · have hsucc : ¬ (p = s.image.rootSlot ∧ i = p + 1) := fun ⟨hpr, hi⟩ =>
      hw.image.root_succ_not_child hq hdrop (by omega)
    have hfree : s.image.free (s.entry i) = true := by
      by_contra hno
      exact hil (.child hq ⟨hdir, hdrop, Bool.not_eq_true _ ▸ hno⟩)
    have hstart : (s.entry i).start = 0 := h.tidy q hq hdir i hdrop hfree
    rw [if_neg hsucc, free_of_start hstart, hfree]
  · -- a copy is named `.` or `..`, before and after
    obtain ⟨n, hn, rfl⟩ := Image.mem_slotsIn.mp hi
    have hlt : n < s.image.copies q := by
      by_contra hge
      exact hdrop (Image.mem_slotsIn_drop.mpr ⟨n, Nat.le_of_not_lt hge, hn, rfl⟩)
    have hcopy := hw.image.copy_name hq hdir hlt
    have hdots : ∀ {x : Str}, x = dotName ∨ x = dotDotName → x ≠ name := by
      rintro x (rfl | rfl) he
      · exact hname.1 (he ▸ List.mem_singleton_self _)
      · exact hname.2 (he ▸ List.mem_singleton_self _)
    have hold := hdots hcopy
    have hnew : ((if p = s.image.rootSlot ∧ s.image.slotAt (s.image.chain q) n = p + 1
        then (grownEntry (s.entry p) true).setName dotDotName
        else s.entry (s.image.slotAt (s.image.chain q) n)).name.toStr) ≠ name := by
      split_ifs
      · exact hdots (.inr (setName_toStr _ (by decide) (by decide)))
      · exact hold
    have hold' : (s.entry (s.image.slotAt (s.image.chain q) n)).name.toStr ≠ name := hold
    simp only [hnew, hold', decide_false, Bool.false_and]

theorem findsAlike (hs : Stretched s t p f k e) (h : Renaming s srcpath destpath k)
    (hout : ¬ pathNames srcpath <+: pathNames destpath) (ht : Home s destpath p) (hf : f ∈ s.freeList) :
    s.image.FindsAlike t.image (pathNames destpath).dropLast := by
  intro pre q name hq hpre
  have hw := h.wf
  have hclear := h.clear_parent hout
  have hpn := h.parent_named ht.parent
  have hqk : q ≠ k := fun he => hclear pre ((List.prefix_append _ _).trans hpre) (he ▸ hq)
  have hqp : q ≠ p := by
    rintro rfl
    have hl := hpre.length_le
    rw [hpn.unique hw.image hq] at hl
    simp at hl
  have hent : t.image.entry q = s.image.entry q := (hs.alike hw hf hq.live hqk).2.2.2 hqp
  have hdots : Image.Dotless (pathNames destpath).dropLast :=
    ⟨fun hm => h.destDots.1 (List.dropLast_subset _ hm), fun hm => h.destDots.2 (List.dropLast_subset _ hm)⟩
  have hkname : s.image.Child q k → (s.entry k).name.toStr ≠ name := by
    rintro hc rfl
    exact hclear _ hpre (hq.child hc)
  refine ⟨by rw [Image.Walkable, Image.Walkable, hent], fun hW => ?_, fun i hi hn => ?_⟩
  · have hdir := (Image.walkable_iff.mp hW).2
    apply Image.findSlot_congr (hs.slots hw hf hq.live hqk hqp)
    intro i hi
    exact hs.found_alike h hf hpn.live hq.live hdir hi (hdots.last hpre) hkname
  · exact (hs.alike hw hf (.child hq.live hi) fun he => hkname (he ▸ hi) (he ▸ hn)).2.2.1

theorem walkReadable (hs : Stretched s t p f k e) (h : Renaming s srcpath destpath k)
    (hout : ¬ pathNames srcpath <+: pathNames destpath) (ht : Home s destpath p)
    (hf : f ∈ s.freeList) {pre rest : List Str}
    {q : ℕ} (hq : s.image.Named pre q) (hn : pre ++ rest = (pathNames destpath).dropLast) :
    t.image.WalkReadable q rest := by
  have hw := h.wf
  have hdots : Image.Dotless (pathNames destpath).dropLast :=
    ⟨fun hm => h.destDots.1 (List.dropLast_subset _ hm), fun hm => h.destDots.2 (List.dropLast_subset _ hm)⟩
  induction rest generalizing pre q with
  | nil => exact trivial
  | cons name rest ih =>
    have hpre : pre ++ [name] <+: (pathNames destpath).dropLast :=
      ⟨rest, by rw [List.append_assoc, List.singleton_append, hn]⟩
    have hqk : q ≠ k := fun he => h.clear_parent hout pre ((List.prefix_append _ _).trans hpre) (he ▸ hq)
    have hqp : q ≠ p := by
      rintro rfl
      have hl := hpre.length_le
      rw [(h.parent_named ht.parent).unique hw.image hq] at hl
      simp at hl
    obtain ⟨hwalk, hfind, -⟩ := hs.findsAlike h hout ht hf pre q name hq hpre
    have howns := hs.owns hw hf hq.live hqk
    intro hW
    refine ⟨⟨?_, ?_⟩, fun i hi => ?_⟩
    · rw [← howns.chainOf_eq] at howns
      exact howns
    · have hent : t.image.entry q = s.entry q := (hs.alike hw hf hq.live hqk).2.2.2 hqp
      have hchain : t.image.chainOf (t.image.entry q) = s.image.chain q := howns.chainOf_eq
      have hsize : (s.image.chain q).length = s.image.blocksFor (s.entry q).len := hw.image.size q hq.live
      rw [hchain, hent, Image.blocksFor, hs.frame.shape.bs]
      exact hsize
    · have hW' : s.image.Walkable q := hwalk ▸ hW
      rw [hfind hW'] at hi
      have hc := hw.image.findSlot_child hq.live hW' (hdots.last hpre) hi
      have hqi := hq.child hc
      rw [(Image.findSlot_some hi).2.1] at hqi
      exact ih hqi (by rw [List.append_assoc, List.singleton_append, hn])

theorem not_found (hs : Stretched s t p f k e) (h : Renaming s srcpath destpath k)
    (hout : ¬ pathNames srcpath <+: pathNames destpath) (ht : Home s destpath p) (hf : f ∈ s.freeList)
    (hfull : s.FullDir p)
    (hne : pathNames destpath ≠ []) {r : FindResult} (hr : t.Finds destpath r) : r.status < 0 := by
  have hw := h.wf
  have hg := hs.frame.geometry hw.geometry
  have hpn := h.parent_named ht.parent
  have hpk : p ≠ k := fun he => h.clear_parent hout _ List.prefix_rfl (he ▸ hpn)
  have hroot : s.image.rootSlot ≠ k := (h.source_ne_root hout).symm
  have hdots : Image.Dotless (pathNames destpath).dropLast :=
    ⟨fun hm => h.destDots.1 (List.dropLast_subset _ hm), fun hm => h.destDots.2 (List.dropLast_subset _ hm)⟩
  obtain ⟨o, ho, -, hpo⟩ := hw.image.live_mem hpn.live
  have hpe : t.entry p = grownEntry (s.entry p) true := by
    rw [hs.entry p (hw.image.live_data hpn.live) (apart hw hf ho hpo), if_neg hpk, if_pos rfl]
  have hlong : (s.image.chain p).length * t.bs < (t.entry p).len := by
    rw [hpe, hs.frame.bs]
    exact grown_overfull hw hpn.live ht.directory hfull
  have hstuck := run_readDir_short hg (hs.owns hw hf hpn.live hpk) (by rw [hpe]; exact ht.directory) hlong
  have hwalk := (hs.findsAlike h hout ht hf).walkDirs hw.image hdots
  have hstart : t.root.start ≠ UNUSABLE := by
    have hs' := (hs.alike hw hf .root hroot).1
    rw [hs.root, hs.frame.rootSlot, hs', entry_start_root hw, hw.geometry.startBlock]
    simp only [UNUSABLE]
    omega
  have hpath : ¬ (destpath = [slash] ∨ destpath = []) := fun he => hne (if_pos he)
  have hnames : components destpath = (pathNames destpath).dropLast ++ lastName destpath :: [] := by
    rw [← pathNames_eq destpath hpath]
    exact pathNames_last hne
  have hloop : findLoop false (destpath.length + 1) destpath (t.entry s.image.rootSlot) (320 * s.image.rootSlot)
      t = some (.fail (-EINVAL), t) :=
    run_findLoop_stuck hg (by tauto) (Nat.lt_succ_self _) hnames (hs.walkReadable h hout ht hf .root rfl)
      (hwalk.trans ht.parent) (by decide) hstuck
  obtain ⟨u, hu⟩ := hr
  have hgr : getRoot t = some ((t.entry s.image.rootSlot, 320 * s.image.rootSlot), t) := by
    unfold getRoot
    simp only [run_bind, run_get, Option.bind_some, run_ite, run_pure]
    rw [if_pos hstart, show mul32 t.superblock.startBlock t.superblock.blockSize = 320 * t.image.rootSlot from
      root_offset hg, hs.root, hs.frame.rootSlot]
  unfold find at hu
  rw [run_bind, hgr, Option.bind_some] at hu
  dsimp only at hu
  rw [run_ite, if_neg hpath, hloop, Option.some.injEq, Prod.mk.injEq] at hu
  rw [← hu.1]
  exact (by decide : (-EINVAL : ℤ) < 0)

end Stretched

theorem Driver.Finds.unique {s : Fs} {path : Str} {r r' : FindResult} (h : s.Finds path r)
    (h' : s.Finds path r') : r = r' := by
  obtain ⟨u, hu⟩ := h
  obtain ⟨u', hu'⟩ := h'
  rw [hu] at hu'
  exact (Prod.mk.inj (Option.some.inj hu')).1

theorem entry_same {s t : Fs} (hg : Geometry s) {k : ℕ} (hk : s.IsSlot k)
    (h : ∀ i < s.partition.length, t.data i = s.data i) : t.entry k = s.entry k := by
  have hb := (slot_bound hg hk).2
  rw [entry_eq, entry_eq, slice_congr s.data t.data (320 * k) 320 fun i _ hi => h i (by omega)]

namespace Renaming
variable {s t : Fs} {srcpath destpath : Str} {k : ℕ} {status : ℤ}

theorem status_eq (h : Renaming s srcpath destpath k) (hr : Renamed s srcpath destpath status t)
    (htakes : s.TakesName destpath) : status = 0 := by
  cases hr with
  | failed hneg hno =>
    rcases hno with ⟨status', he⟩ | hno
    · rw [h.source] at he
      cases he
    · exact absurd htakes hno
  | replaced => rfl
  | placed => rfl

theorem source_directory (h : Renaming s srcpath destpath k) (htakes : s.TakesName destpath)
    (hin : pathNames srcpath <+: pathNames destpath) (hne : pathNames srcpath ≠ pathNames destpath) :
    (s.entry k).isDirectory := by
  have hk := h.named h.srcDots h.source
  have hbelow : ∀ {names : List Str} {i : ℕ}, s.image.Named names i → pathNames srcpath <+: names →
      pathNames srcpath ≠ names → (s.entry k).isDirectory := by
    intro names i hi hpre hne
    obtain ⟨q, hq, hdir⟩ := hi.through hpre hne
    obtain rfl := h.unique.named_eq hq hk
    exact hdir
  rcases htakes with ⟨d, hd, -⟩ | ⟨-, p, ht, -⟩
  · exact hbelow (h.named h.destDots hd) hin hne
  · have hpn := h.parent_named ht.parent
    have hnil : pathNames destpath ≠ [] := by
      intro he
      rw [he] at hin hne
      exact hne (List.prefix_nil.mp hin)
    rw [pathNames_last hnil] at hin hne
    have hin' := (List.prefix_concat_iff.mp hin).resolve_left hne
    by_cases heq : pathNames srcpath = (pathNames destpath).dropLast
    · rw [← heq] at hpn
      obtain rfl := h.unique.named_eq hpn hk
      exact ht.directory
    · exact hbelow hpn hin' heq

/-- Renaming an entry to itself wipes it out. -/
theorem not_self (h : Renaming s srcpath destpath k) (hr : Renamed s srcpath destpath status t)
    (htakes : s.TakesName destpath) (hone : RenamesOne s srcpath destpath status t) :
    pathNames srcpath ≠ pathNames destpath := by
  intro heq
  have hd : s.lookup destpath = .ok k := by
    rw [Driver.lookup, ← heq]
    exact h.source
  have hkl := (h.named h.srcDots h.source).live
  have hsame :=
    entry_same h.wf.geometry (h.wf.image.live_data hkl) (hone.unchanged (h.status_eq hr htakes) k h.source hd)
  cases hr with
  | failed hneg =>
    have := h.status_eq (.failed hneg ‹_›) htakes
    omega
  | @replaced k' d hk hd' hfile =>
    obtain rfl : k = k' := Except.ok.inj (h.source.symm.trans hk)
    obtain rfl : k = d := Except.ok.inj (hd.symm.trans hd')
    have hframe := removed_frame s k
    have hslot := hframe.isSlot.mpr (h.wf.image.live_data hkl)
    have hzero :=
      moved_entry (e := (s.entry k).setName (baseName destpath)) (hframe.geometry h.wf.geometry) hslot hslot k
    rw [if_pos rfl, hsame] at hzero
    have hfree : s.image.free (s.entry k) = true := by
      rw [hzero]
      exact free_of_start zeroEntry_start
    have hlive : s.image.free (s.entry k) = false := (h.wf.image.owns k hkl).not_free
    rw [hfree] at hlive
    cases hlive
  | placed _ hd' =>
    rw [hd] at hd'
    cases hd'

theorem outside (h : Renaming s srcpath destpath k) (hr : Renamed s srcpath destpath status t)
    (htakes : s.TakesName destpath) (hone : RenamesOne s srcpath destpath status t) :
    ¬ pathNames srcpath <+: pathNames destpath := by
  intro hin
  have hne := h.not_self hr htakes hone
  have hneg := hone.refused k h.source (.inr ⟨h.source_directory htakes hin hne, hin, hne⟩)
  have h0 := h.status_eq hr htakes
  omega

theorem short (h : Renaming s srcpath destpath k) (hr : Renamed s srcpath destpath status t)
    (hnul : (0 : UInt8) ∉ destpath)
    (htakes : s.TakesName destpath) (hone : RenamesOne s srcpath destpath status t) :
    (lastName destpath).length ≤ THORNFAT_PATH_MAX := by
  by_contra hlong
  have hout := h.outside hr htakes hone
  rcases htakes with ⟨d, hd, hfile⟩ | ⟨-, p, ht, -⟩
  · cases hr with
    | failed hneg =>
      have := h.status_eq (.failed hneg ‹_›) (.inl ⟨d, hd, hfile⟩)
      omega
    | @replaced k' d' hk hd' _ =>
      obtain rfl : k = k' := Except.ok.inj (h.source.symm.trans hk)
      obtain rfl : d = d' := Except.ok.inj (hd.symm.trans hd')
      have hother : s.lookup destpath ≠ .ok k := fun he => hout ((h.same_names he).symm ▸ List.prefix_rfl)
      obtain ⟨o, hfound⟩ := (hone.moved rfl k h.source hother).there
      obtain ⟨p, hready⟩ := h.replaced_ready hout hd hfile
      have hcut : ((s.entry k).setName (baseName destpath)).name.toStr ≠ lastName destpath := by
        have hbase := baseName_eq hready.dest_ne_nil
        have hlen : (baseName destpath).length ≤ THORNFAT_PATH_MAX := by
          rw [hbase]
          exact List.length_take_le _ _
        have h0 : (0 : UInt8) ∉ baseName destpath := fun h0 => by
          rw [hbase] at h0
          exact hnul (lastName_bytes (List.mem_of_mem_take h0))
        rw [setName_toStr _ hlen h0]
        intro he
        rw [← he] at hlong
        exact hlong hlen
      have hsource : (s.removed d).entry k = s.entry k := (h.replaced_prepared hout hd hfile).source
      rw [← hsource] at hcut hfound
      have hlost := hready.lookup_other (baseName destpath) h.destDots hout fun hpre => by
        have heq := hready.dest_eq
        rw [heq] at hpre
        rw [List.dropLast_concat] at hpre
        have hlast := List.append_cancel_left (hpre.eq_of_length (by simp))
        exact hcut (List.cons.inj hlast).1
      have hfind := finds_lookup (hready.wellFormed (baseName destpath)) h.destDots
      rw [hlost, hready.absent] at hfind
      have hstatus := congrArg FindResult.status (hfound.unique hfind)
      exact absurd hstatus (show (0 : ℤ) ≠ -ENOENT by decide)
    | placed _ hd' =>
      rw [hd] at hd'
      cases hd'
  · exact hlong ht.short

/-- A parent that was given a further block does not find the entry. -/
theorem hasSlot (h : Renaming s srcpath destpath k) (hr : Renamed s srcpath destpath status t)
    (hout : ¬ pathNames srcpath <+: pathNames destpath) (htakes : s.TakesName destpath)
    (hone : RenamesOne s srcpath destpath status t) (hd : s.lookup destpath = .error (-ENOENT)) :
    s.HasSlot destpath := by
  by_contra hno
  have hstatus := h.status_eq hr htakes
  cases hr with
  | failed hneg => omega
  | replaced _ hd' =>
    rw [hd] at hd'
    cases hd'
  | @placed k' type times r u hk _ ht hst =>
    obtain rfl : k = k' := Except.ok.inj (h.source.symm.trans hk)
    have hn : ((newEntry 0 type times).setStart 0).start = 0 := by
      rw [DirEntry.setStart_start]
      rfl
    cases ht with
    | lost hneg => exact absurd hneg (not_lt.mpr hst)
    | @recycled p j ht hj => exact hno ⟨p, ht.parent, .inl (by simp [hj])⟩
    | @appended p ht hj hroom => exact hno ⟨p, ht.parent, .inr hroom⟩
    | @expanded p f fs ht hj hfull hfree =>
      have hf : f ∈ s.freeList := hfree ▸ List.mem_cons_self
      have hkl := (h.named h.srcDots h.source).live
      have hs :=
        @stretched s h.wf h.root p f k ((s.image.chain p).getLastD 0) (h.parent_named ht.parent).live hf hkl
        (h.source_ne_root hout) _ hn ((s.entry k).setName (baseName destpath))
      have hne : pathNames destpath ≠ [] := fun he => by
        rw [Driver.lookup, he] at hd
        cases hd
      have hother : s.lookup destpath ≠ .ok k := fun he => by
        rw [hd] at he
        cases he
      obtain ⟨o, hfound⟩ := (hone.moved rfl k h.source hother).there
      have hneg := hs.not_found h hout ht hf hfull hne hfound
      exact absurd hneg (lt_irrefl _)

theorem movesCleanly (h : Renaming s srcpath destpath k) (hr : Renamed s srcpath destpath status t)
    (hnul : (0 : UInt8) ∉ destpath)
    (hone : RenamesOne s srcpath destpath status t) : s.MovesCleanly srcpath destpath := by
  intro k' hk' htakes
  obtain rfl : k = k' := Except.ok.inj (h.source.symm.trans hk')
  have hout := h.outside hr htakes hone
  exact ⟨hout, h.short hr hnul htakes hone, h.hasSlot hr hout htakes hone⟩

end Renaming

section Loading
variable {s t : Fs} {srcpath destpath : Str} {status : ℤ}

theorem finds_load (hw : WellFormed s) {path : Str} (hp : NoDots path) {r : FindResult} :
    s.load.Finds path r ↔ s.Finds path r := by
  have hload : s.load.Finds path (s.found [] (s.lookup path)) := finds_lookup hw.load hp
  have hfind := finds_lookup hw hp
  constructor
  · intro hr
    exact hr.unique hload ▸ hfind
  · intro hr
    exact hr.unique hfind ▸ hload

theorem entryMoved_load (hw : WellFormed s) {k : ℕ} :
    EntryMoved s.load t srcpath destpath k ↔ EntryMoved s t srcpath destpath k := by
  constructor
  · intro h
    refine ⟨h.there, h.content, h.gone, h.released, fun path hdot hsrc hdst => ?_⟩
    obtain ⟨r, r', hr, hr', halike⟩ := h.others path hdot hsrc hdst
    exact ⟨r, r', (finds_load hw hdot).mp hr, hr', halike⟩
  · intro h
    refine ⟨h.there, h.content, h.gone, h.released, fun path hdot hsrc hdst => ?_⟩
    obtain ⟨r, r', hr, hr', halike⟩ := h.others path hdot hsrc hdst
    exact ⟨r, r', (finds_load hw hdot).mpr hr, hr', halike⟩

theorem renamesOne_load (hw : WellFormed s) :
    RenamesOne s.load srcpath destpath status t ↔ RenamesOne s srcpath destpath status t :=
  ⟨fun h => ⟨h.refused, h.unchanged, fun h0 k hk hd => (entryMoved_load hw).mp (h.moved h0 k hk hd)⟩,
    fun h => ⟨h.refused, h.unchanged, fun h0 k hk hd => (entryMoved_load hw).mpr (h.moved h0 k hk hd)⟩⟩

theorem home_load {path : Str} {p : ℕ} : Home s.load path p ↔ Home s path p :=
  ⟨fun h => ⟨h.parent, h.short, h.directory⟩, fun h => ⟨h.parent, h.short, h.directory⟩⟩

theorem takesName_load {path : Str} : s.load.TakesName path ↔ s.TakesName path := by
  have hplace : s.load.HasPlace path ↔ s.HasPlace path := exists_congr fun p => and_congr_left' home_load
  exact or_congr Iff.rfl (and_congr_right' hplace)

theorem movesCleanly_load : s.load.MovesCleanly srcpath destpath ↔ s.MovesCleanly srcpath destpath :=
  forall_congr' fun _ => imp_congr_right fun _ => imp_congr_left takesName_load

/-- `rename` returns, and it moves one entry just where it is clean. -/
theorem rename_moves_iff (s : Fs) (hw : WellFormed s) (htidy : s.image.Tidy) (hunique : s.image.UniqueNames)
    {srcpath destpath : Str} (hsrc : NoDots srcpath) (hdest : NoDots destpath) (hnul : (0 : UInt8) ∉ destpath) :
    ∃ status t, rename srcpath destpath s = some (status, t) ∧
      (RenamesOne s srcpath destpath status t ↔ s.MovesCleanly srcpath destpath) := by
  obtain ⟨status, t, hrun, hr⟩ := run_rename hw (clean_of_noDots hw hsrc) fun _ _ => receives_of_noDots hw hdest
  refine ⟨status, t, hrun, ?_⟩
  rw [← renamesOne_load hw, ← movesCleanly_load]
  cases hk : s.lookup srcpath with
  | error status' =>
    have hnone : ∀ k, s.lookup srcpath ≠ .ok k := fun k he => by
      rw [hk] at he
      cases he
    refine ⟨fun _ k he => absurd he (hnone k), fun _ => ⟨fun k he => ?_, fun _ k he => ?_, fun _ k he => ?_⟩⟩
    · exact absurd he (hnone k)
    · exact absurd he (hnone k)
    · exact absurd he (hnone k)
  | ok k =>
    have h : Renaming s.load srcpath destpath k := ⟨hw.load, htidy, hunique, rfl, hsrc, hdest, hk⟩
    exact ⟨h.movesCleanly hr hnul, h.renamesOne hr hnul⟩

end Loading

section Sample
open FatSample

section Pictured
variable {I : Image} (h : picture.Agree I)

include h

theorem picture_listed {p k : ℕ} (hp : I.Live p) (hdir : (I.entry p).isDirectory)
    (hk : k ∈ (I.slots p).drop (I.copies p)) :
    picture.IsData (k / picture.epb) ∧ (p = 4 ∧ k ∈ [6, 7, 14, 15] ∨ p = 14 ∧ k = 17) := by
  have hw := picture_catalogue.wellFormed
  have hl : picture.Live p := (h.live_iff hw p).mp hp
  rw [h.slots hw hl, h.copies] at hk
  rw [h.entry p (hw.live_data hl)] at hdir
  refine ⟨hw.slot_data hl (List.mem_of_mem_drop hk), ?_⟩
  have hm := (picture_catalogue.live_iff p).mp hl
  simp only [liveSlots, List.mem_cons, List.not_mem_nil, or_false] at hm
  rcases hm with rfl | rfl | rfl | rfl | rfl
  · have hlist : (picture.slots 4).drop (picture.copies 4) = [6, 7, 14, 15] := by decide
    rw [hlist] at hk
    exact .inl ⟨rfl, hk⟩
  · exact absurd hdir (by decide)
  · exact absurd hdir (by decide)
  · have hlist : (picture.slots 14).drop (picture.copies 14) = [17] := by decide
    rw [hlist] at hk
    exact .inr ⟨rfl, List.mem_singleton.mp hk⟩
  · exact absurd hdir (by decide)

theorem picture_tidy : I.Tidy := by
  intro p hp hdir k hk hfree
  obtain ⟨hs, hlist⟩ := picture_listed h hp hdir hk
  rw [h.free k hs] at hfree
  rw [h.entry k hs]
  rcases hlist with ⟨-, hk⟩ | ⟨-, rfl⟩
  · simp only [List.mem_cons, List.not_mem_nil, or_false] at hk
    rcases hk with rfl | rfl | rfl | rfl
    · exact absurd hfree (by decide)
    · exact absurd hfree (by decide)
    · exact absurd hfree (by decide)
    · decide
  · exact absurd hfree (by decide)

theorem picture_unique : I.UniqueNames := by
  intro p k l hp hk hl he
  obtain ⟨hks, hklist⟩ := picture_listed h hp hk.1 hk.2.1
  obtain ⟨hls, hllist⟩ := picture_listed h hp hl.1 hl.2.1
  have hkf := hk.2.2
  have hlf := hl.2.2
  rw [h.free k hks] at hkf
  rw [h.free l hls] at hlf
  rw [h.entry k hks, h.entry l hls] at he
  have hnames : ∀ k ∈ [6, 7, 14, 15], ∀ l ∈ [6, 7, 14, 15], picture.free (picture.entry k) = false →
      picture.free (picture.entry l) = false →
      (lookupEntry entries k).name.toStr = (lookupEntry entries l).name.toStr → k = l := by decide
  rcases hklist with ⟨rfl, hkm⟩ | ⟨rfl, rfl⟩
  · rcases hllist with ⟨-, hlm⟩ | ⟨hp, -⟩
    · exact hnames k hkm l hlm hkf hlf he
    · cases hp
  · rcases hllist with ⟨hp, -⟩ | ⟨-, rfl⟩
    · cases hp
    · rfl

end Pictured

theorem disk_tidy : disk.image.Tidy := picture_tidy disk_agree

theorem disk_unique : disk.image.UniqueNames := picture_unique disk_agree

theorem rename_moves_f :
    WellFormed disk ∧ disk.image.Tidy ∧ disk.image.UniqueNames ∧ NoDots pathF ∧ NoDots pathX ∧
    (0 : UInt8) ∉ pathX ∧ ∃ status t, rename pathF pathX disk = some (status, t) ∧
      (RenamesOne disk pathF pathX status t ↔ disk.MovesCleanly pathF pathX) :=
  ⟨disk_wellFormed, disk_tidy, disk_unique, pathF_noDots, pathX_noDots, by decide,
    rename_moves_iff disk disk_wellFormed disk_tidy disk_unique pathF_noDots pathX_noDots (by decide)⟩

/-- `rename("/f", "/f")` returns 0 and `/f` is gone. -/
theorem rename_wipes_f :
    WellFormed disk.load ∧ disk.load.image.Tidy ∧ disk.load.image.UniqueNames ∧ NoDots pathF ∧
    ∃ t, rename pathF pathF disk.load = some (0, t) ∧ ¬ RenamesOne disk.load pathF pathF 0 t := by
  refine ⟨disk_wellFormed.load, disk_tidy, disk_unique, pathF_noDots, ?_⟩
  have hclean := clean_of_noDots disk_wellFormed.load pathF_noDots
  obtain ⟨status, t, hrun, hr⟩ :=
    run_rename disk_wellFormed.load hclean fun _ _ => receives_of_noDots disk_wellFormed.load pathF_noDots
  have h : Renaming disk.load pathF pathF 6 :=
    ⟨disk_wellFormed.load, disk_tidy, disk_unique, rfl, pathF_noDots, pathF_noDots, disk_lookup_f⟩
  have hfile : (disk.load.entry 6).isDirectory = false := by
    change (disk.entry 6).isDirectory = false
    rw [disk_entry_f]
    rfl
  have htakes : disk.load.TakesName pathF := .inl ⟨6, disk_lookup_f, hfile⟩
  obtain rfl := h.status_eq hr htakes
  refine ⟨t, hrun, fun hone => ?_⟩
  exact h.not_self hr htakes hone rfl

end Sample

end Thorn.FatDriver

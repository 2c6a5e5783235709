import Thorn.SpaceChecks

set_option autoImplicit false

namespace Thorn.FatDriver
open ByteStore Paths FatTypes FatOperations FatImage LinkedChain

structure PlacesEntry (s t : Fs) (p length : ℕ) (newfile : DirEntry) (r : NewFileResult) (k : ℕ)
    (own more : List ℕ) : Prop where
  inside : k ∈ t.image.slots p
  offset : r.offset = 320 * k
  entry : ∃ b : ℕ, r.entry = newfile.setStart b
  stored : t.entry k = r.entry
  owns : t.image.Owns r.entry own
  count : own.length = s.blocksFor length
  free : ∀ b ∈ own ++ more, b ∈ s.freeList
  parent : t.image.Owns (t.entry p) (s.image.chain p ++ more)
  extended : more.length = if s.freedSlot p = none ∧ s.FullDir p then 1 else 0
  cells : ∀ b : ℕ, b < s.blockCount → b ∉ own → b ∉ more → (more ≠ [] → b ≠ (s.image.chain p).getLastD 0) →
    t.fat b = s.fat b
  slots : ∀ j, s.IsSlot j → j ≠ k → j ≠ p → ¬ (p = s.image.rootSlot ∧ j = p + 1) → t.entry j = s.entry j

def RightPlace (s t : Fs) (p length : ℕ) (newfile : DirEntry) (r : NewFileResult) : Prop :=
  ∃ k own more, PlacesEntry s t p length newfile r k own more

section Places
variable {s t : Fs} {p k length f : ℕ} {fs l : List ℕ} {newfile : DirEntry}

theorem RightPlace.of_load {r : NewFileResult} (h : RightPlace s.load t p length newfile r) :
    RightPlace s t p length newfile r := by
  obtain ⟨k, own, more, h⟩ := h
  exact ⟨k, own, more, h.inside, h.offset, h.entry, h.stored, h.owns, h.count, h.free, h.parent, h.extended,
    h.cells, h.slots⟩

theorem RightPlace.load {r : NewFileResult} (h : RightPlace s t p length newfile r) :
    RightPlace s.load t p length newfile r := by
  obtain ⟨k, own, more, h⟩ := h
  exact ⟨k, own, more, h.inside, h.offset, h.entry, h.stored, h.owns, h.count, h.free, h.parent, h.extended,
    h.cells, h.slots⟩

theorem linked_owns {v : Fs} {b : ℕ} {e : DirEntry} (h : Linked v t b l) (hv : SameFrame s v)
    (hd : ∀ x ∈ b :: l, s.image.IsData x) (he : e.start = b) : t.image.Owns e (b :: l) :=
  ⟨⟨b, he, h.chain⟩, fun x hx => (hv.trans h.table.frame).isData.mpr (hd x hx)⟩

theorem slots_of_owns {J : Image} {I : Image} (hepb : J.epb = I.epb) {l : List ℕ} (ho : J.Owns (J.entry p) l) :
    J.slots p = I.slotsIn l ((J.entry p).len / sizeofDirEntry) := by
  have hat : J.slotAt = I.slotAt := by
    funext l i
    rw [Image.slotAt, Image.slotAt, hepb]
  have hchain : J.chain p = l := ho.chainOf_eq
  rw [Image.slots, Image.slotsIn, Image.slotsIn, hchain, hat, Image.count]

structure SetDown (s t : Fs) (p k f : ℕ) (e : DirEntry) (grow : Bool) (l : List ℕ) : Prop where
  frame : SameFrame s t
  new : t.entry k = e
  parent : t.entry p = grownEntry (s.entry p) grow
  others : ∀ j, s.IsSlot j → j ≠ k → j ≠ p → ¬ (p = s.image.rootSlot ∧ j = p + 1) → t.entry j = s.entry j
  cells : ∀ b : ℕ, b < s.blockCount → b ∉ f :: l → t.fat b = s.fat b
  owns : t.image.Owns e (f :: l)
  chain : t.image.Owns (t.entry p) (s.image.chain p)

theorem setDown (hw : WellFormed s) (hp : s.image.Live p) (hfree : s.freeList = f :: fs) (hl : l ⊆ fs)
    (hk : s.Takes k) (hkp : k ≠ p) {e : DirEntry} (he : e.start = f) {grow : Bool}
    (h : Linked ((s.allocated f).entered p k e grow true) t f l) : SetDown s t p k f e grow l := by
  have hg := hw.geometry
  have hmem : ∀ x ∈ f :: l, x ∈ s.freeList := by
    intro x hx
    rw [hfree]
    rcases List.mem_cons.mp hx with rfl | hx
    · exact List.mem_cons_self
    · exact List.mem_cons_of_mem _ (hl hx)
  have hf := (mem_freeList.mp (hmem f List.mem_cons_self)).1
  have honly := OnlyTable.allocated hg hf
  have hga := honly.frame.geometry hg
  have hslot := hw.image.live_data hp
  have hka := honly.frame.takes hk
  have hpa : (s.allocated f).IsSlot p := honly.frame.isSlot.mpr hslot
  have hframe := honly.frame.trans (SameFrame.entered (s.allocated f) p k e grow true)
  have hbehind := hk.behind
  have hnot : ¬ (p = s.image.rootSlot ∧ k = p + 1) := fun h => by omega
  have hentry : ∀ j, s.IsSlot j → ¬ (p = s.image.rootSlot ∧ j = p + 1) → t.entry j =
      if j = p then grownEntry (s.entry p) grow else if j = k then e else s.entry j := by
    intro j hj hjr
    have haj := allocated_entry hg hf hj
    have hap := allocated_entry hg hf hslot
    rw [h.table.entry (hframe.geometry hg) (hframe.isSlot.mpr hj)]
    cases grow with
    | true => rw [grown_entry hga hpa hka j, hap, haj, honly.frame.rootSlot, if_neg hjr]
    | false =>
      have hstored : ((s.allocated f).entered p k e false true).entry j =
          if j = k then e else (s.allocated f).entry j :=
        stored_entry hga hka j
      rw [hstored, haj]
      by_cases hjp : j = p
      · subst hjp
        rw [if_neg hkp.symm, if_pos rfl]
        rfl
      · rw [if_neg hjp]
  have hcells : ∀ b : ℕ, b < s.blockCount → b ∉ f :: l → t.fat b = s.fat b := by
    intro b hb hno
    have hbv : b < ((s.allocated f).entered p k e grow true).blockCount := by
      rw [hframe.blockCount]
      exact hb
    rw [h.others b hbv hno, entered_fat hga hpa hka grow hb, allocated_fat hg hf hb,
      if_neg fun hbf : b = f => hno (hbf ▸ List.mem_cons_self)]
  have hparent : t.entry p = grownEntry (s.entry p) grow :=
    (hentry p hslot fun h => by omega).trans (if_pos rfl)
  have hnew : t.entry k = e := (hentry k hk.slot hnot).trans ((if_neg hkp).trans (if_pos rfl))
  refine ⟨hframe.trans h.table.frame, hnew, hparent, fun j hj hjk hjp hjr => ?_, hcells, ?_, ?_⟩
  · rw [hentry j hj hjr, if_neg hjp, if_neg hjk]
  · exact linked_owns h hframe (fun x hx => hw.free_data (hmem x hx)) he
  · apply (hw.image.owns p hp).congr
    · rw [hparent, grownEntry_start]
      rfl
    · exact fun b hb => hcells b ((hw.image.owns p hp).data b hb).2 fun hin => hw.free_apart hp (hmem b hin) hb
    · exact fun b hb => (hframe.trans h.table.frame).isData.mpr ((hw.image.owns p hp).data b hb)

theorem SetDown.right (length : ℕ) (hfree : s.freeList = f :: fs) (hl : l ⊆ fs) {grow : Bool}
    (hf : (newfile.setStart f).start = f) (h : SetDown s t p k f (newfile.setStart f) grow l)
    (hin : k ∈ s.image.slotsIn (s.image.chain p) ((grownEntry (s.entry p) grow).len / sizeofDirEntry))
    (hext : ¬ (s.freedSlot p = none ∧ s.FullDir p)) {r : NewFileResult} (hr : r.offset = 320 * k)
    (he : r.entry = newfile.setStart f) :
    RightPlace s t p length newfile r ↔ l.length + 1 = s.blocksFor length := by
  constructor
  · rintro ⟨k', own, more, hplace⟩
    have howns := hplace.owns
    rw [he] at howns
    rw [← hplace.count, howns.unique h.owns, List.length_cons]
  · intro hcount
    have hslots := slots_of_owns h.frame.epb h.chain
    refine ⟨k, f :: l, [], ?_, hr, ⟨f, he⟩, h.new.trans he.symm, he ▸ h.owns, hcount, ?_, ?_, ?_, ?_, h.others⟩
    · rw [hslots]
      change k ∈ s.image.slotsIn _ ((t.entry p).len / sizeofDirEntry)
      rwa [h.parent]
    · intro b hb
      rw [List.append_nil] at hb
      rw [hfree]
      rcases List.mem_cons.mp hb with rfl | hb
      · exact List.mem_cons_self
      · exact List.mem_cons_of_mem _ (hl hb)
    · rw [List.append_nil]
      exact h.chain
    · rw [if_neg hext, List.length_nil]
    · exact fun b hb hno _ _ => h.cells b hb hno

/-- A block that is linked backwards is no part of the directory. -/
theorem expanded_wrong (hw : WellFormed s) (hp : s.image.Live p) {g : ℕ} (hfree : s.freeList = f :: g :: fs)
    (hl : l ⊆ fs)
    {e : DirEntry}
    (h : Linked ((s.backed p f).entered p (f * s.image.epb) e true true) t g l) {r : NewFileResult}
    (hr : r.offset = 320 * (f * s.image.epb)) : ¬ RightPlace s t p length newfile r := by
  have hg := hw.geometry
  have hmem : f ∈ s.freeList := hfree ▸ List.mem_cons_self
  have hf := (mem_freeList.mp hmem).1
  have hf0 : 0 < f := (Nat.zero_le _).trans_lt (hw.free_data hmem).1
  have hlast := chain_last_data hw hp
  have hbframe := SameFrame.backed s p f
  have hframe := hbframe.trans (SameFrame.entered (s.backed p f) p (f * s.image.epb) e true true)
  have haframe := (OnlyTable.allocated hg hf).frame
  have hnd := freeList_nodup s
  rw [hfree] at hnd
  have hback : t.fat f = ((s.image.chain p).getLastD 0 : ℕ) := by
    have hno : f ∉ g :: l := by
      intro hin
      apply (List.nodup_cons.mp hnd).1
      rcases List.mem_cons.mp hin with rfl | hin
      · exact List.mem_cons_self
      · exact List.mem_cons_of_mem _ (hl hin)
    have hfv : f < ((s.backed p f).entered p (f * s.image.epb) e true true).blockCount := by
      rw [hframe.blockCount]
      exact hf
    have hfb : f < (s.backed p f).blockCount := by
      rw [hbframe.blockCount]
      exact hf
    have hfa : f < (s.allocated f).blockCount := by
      rw [haframe.blockCount]
      exact hf
    have hla : (s.image.chain p).getLastD 0 < (s.allocated f).blockCount := by
      rw [haframe.blockCount]
      exact hlast.2
    rw [h.others f hfv hno, entered_fat (hbframe.geometry hg) (hbframe.isSlot.mpr (hw.image.live_data hp))
      (hbframe.takes (block_takes hw hmem)) true hfb, backed_eq, addFree_fat,
      putFAT_block_fat (haframe.geometry hg) hfa hfa hla, if_pos rfl]
  rintro ⟨k, own, more, hplace⟩
  have hk : k = f * s.image.epb := by
    have := hplace.offset
    omega
  have hin := hplace.inside
  rw [slots_of_owns (hframe.trans h.table.frame).epb hplace.parent, Image.slotsIn, List.mem_map] at hin
  obtain ⟨i, -, hi⟩ := hin
  have hdiv : s.image.slotAt (s.image.chain p ++ more) i / s.image.epb = f := by
    rw [hi, hk, Nat.mul_div_cancel _ hg.epb_pos]
  have hmemf : f ∈ s.image.chain p ++ more := by
    by_cases hlt : i / s.image.epb < (s.image.chain p ++ more).length
    · rw [← hdiv]
      exact Image.slotAt_mem hg.epb_pos _ _ hlt
    · rw [Image.slotAt, List.getD_eq_default _ _ (not_lt.mp hlt), Nat.zero_mul, Nat.zero_add,
        Nat.div_eq_of_lt (Nat.mod_lt _ hg.epb_pos)] at hdiv
      omega
  have hmore : f ∈ more := (List.mem_append.mp hmemf).resolve_left (hw.free_apart hp hmem)
  have hone : more = [f] := by
    have hlen : more.length = 1 := by
      have hpos := List.length_pos_of_mem hmore
      have hlen := hplace.extended
      split_ifs at hlen <;> omega
    obtain ⟨x, hx⟩ := List.length_eq_one_iff.mp hlen
    rw [hx, List.mem_singleton] at hmore
    rw [hx, hmore]
  have hfinal := hplace.parent.fat_last
  have hgl : (s.image.chain p ++ more).getLast hplace.parent.ne_nil = f := by
    simp only [hone, List.getLast_append_singleton]
  rw [hgl, image_fat, hback] at hfinal
  simp only [FINAL] at hfinal
  omega

theorem blocks_right {n m : ℕ} (hm : n / 2 ≤ m) : (min (n / 2) m) + 1 = max 1 n ↔ n ≤ 2 := by
  rw [min_eq_left hm]
  omega

theorem stands_right_iff (hw : WellFormed s) (hp : s.image.Live p)
    (hd : (s.entry p).isDirectory) {r : NewFileResult} (h : Stands s p length newfile r t) :
    RightPlace s t p length newfile r ↔ updiv length s.bs ≤ 2 ∧ (s.Reuses p ∨ ¬ s.FullDir p) := by
  have hg := hw.geometry
  have hstart : ∀ {f : ℕ}, f ∈ s.freeList → (newfile.setStart f).start = f := fun {f} hf => by
    rw [DirEntry.setStart_start, hg.toInt32_block (mem_freeList.mp hf).1]
  cases h with
  | @recycled f k fs t hfree hk henough ht =>
    have hmem : f ∈ s.freeList := hfree ▸ List.mem_cons_self
    have hreuses : s.Reuses p := by
      by_contra hno
      rw [(freedSlot_reuses hw hp hfree).mpr hno] at hk
      cases hk
    have hkin := allocated_freedSlot hw hfree hp hk
    obtain ⟨j, hj, hjf, -⟩ := id hreuses
    have hfreed : s.freedSlot p ≠ none := fun hnone => by
      rw [freedSlot_live hw hp, List.find?_eq_none] at hnone
      exact hnone j hj hjf
    have hkp : k ≠ p := by
      intro he
      have hf := (mem_freeList.mp hmem).1
      have hkf := List.find?_some hk
      rw [he, allocated_entry hg hf (hw.image.live_data hp),
        allocated_free hg hf ((Nat.zero_le _).trans_lt (hw.free_data hmem).1), Bool.and_eq_true] at hkf
      exact absurd hkf.1 (Bool.eq_false_iff.mp (hw.image.owns p hp).not_free)
    have hset := setDown hw hp hfree (List.take_subset _ _)
      ⟨hw.image.slot_data hp (List.mem_of_mem_drop hkin), child_behind hw hp hkin⟩ hkp (hstart hmem) ht
    have hright := hset.right length hfree (List.take_subset _ _) (hstart hmem) (List.mem_of_mem_drop hkin)
      (fun hc => hfreed hc.1) (r := (s.allocated f).newResult p k (newfile.setStart f) false) rfl rfl
    rw [hright, List.length_take, Driver.blocksFor, blocks_right henough]
    exact ⟨fun hn => ⟨hn, .inl hreuses⟩, fun hn => hn.1⟩
  | @appended f fs t hfree hreuses hroom henough ht =>
    have hmem : f ∈ s.freeList := hfree ▸ List.mem_cons_self
    have hset := setDown hw hp hfree (List.take_subset _ _) (endSlot_takes hw hp hd hroom)
      (endSlot_ne hw hp hd hroom) (hstart hmem) ht
    have hcount : s.image.count p < (grownEntry (s.entry p) true).len / sizeofDirEntry := by
      rw [grownEntry_len hw hp, Nat.add_div_right _ (by decide)]
      exact Nat.lt_succ_self _
    have hin : s.endSlot p ∈ s.image.slotsIn (s.image.chain p)
        ((grownEntry (s.entry p) true).len / sizeofDirEntry) :=
      List.mem_map.mpr ⟨_, List.mem_range.mpr hcount, rfl⟩
    have hright := hset.right length hfree (List.take_subset _ _) (hstart hmem) hin
      (fun hc => hroom hc.2) (r := (s.allocated f).newResult p (s.endSlot p) (newfile.setStart f) true) rfl rfl
    rw [hright, List.length_take, Driver.blocksFor, blocks_right henough]
    exact ⟨fun hn => ⟨hn, .inr hroom⟩, fun hn => hn.1⟩
  | @expanded f g fs t hfree hreuses hfull ht =>
    refine iff_of_false (expanded_wrong hw hp hfree (List.take_subset _ _) ht rfl) ?_
    rintro ⟨-, hno | hno⟩
    · exact hreuses hno
    · exact hno hfull

/-- A new file that `newFile` reports stands as it should exactly when it needs no more than two blocks and its
directory needs none. -/
theorem place_right_iff (hw : WellFormed s) {path : Str}
    (hstay : s.image.StaysLive s.image.rootSlot (pathNames path).dropLast) (hl : s.lookupParent path = .ok p)
    (hd : (s.entry p).isDirectory) (hshort : (lastName path).length ≤ THORNFAT_PATH_MAX) (length : ℕ)
    (type : FileType)
    (times : Option Times) {r : NewFileResult} (hrun : newFile path length type times false s = some (r, t))
    (hok : 0 ≤ r.status) : RightPlace s t p length ((newEntry length type times).setName (lastName path)) r ↔
      updiv length s.bs ≤ 2 ∧ (s.Reuses p ∨ ¬ s.FullDir p) := by
  have hp : s.load.image.Live p := hstay.walkDirs .root hl
  obtain ⟨r', t', hrun', hyes, hno⟩ := newFile_ends hw hstay hl hd hshort length type times
  rw [hrun] at hrun'
  cases hrun'
  have henough : s.load.asks p length ≤ s.load.freeList.length := by
    by_contra hfew
    have hneg : (-ENOSPC : ℤ) < 0 := by decide
    rw [hno (not_le.mp hfew)] at hok
    omega
  have hiff : RightPlace s.load t p length ((newEntry length type times).setName (lastName path)) r ↔
      updiv length s.bs ≤ 2 ∧ (s.Reuses p ∨ ¬ s.FullDir p) := stands_right_iff hw.load hp hd (hyes henough)
  exact ⟨fun h => hiff.mp h.load, fun h => (hiff.mpr h).of_load⟩

end Places

end Thorn.FatDriver

namespace Thorn.FatSample
open ByteStore Paths FatTypes FatDriver FatOperations FatImage

theorem disk_newFile {length : ℕ} (hlen : 1 + updiv length 640 / 2 ≤ 2) : ∃ r t,
    newFile pathX length .File none false disk = some (r, t) ∧ r.status = 0 ∧
      Stands disk.load 4 length ((newEntry length .File none).setName (lastName pathX)) r t := by
  have hasks : disk.load.asks 4 length = 1 + updiv length 640 / 2 := if_pos disk_reuses
  have hfree : disk.load.freeList.length = 2 := (congrArg List.length disk_freeList).trans rfl
  have hparent : disk.lookupParent pathX = .ok 4 := (disk_lookupParent pathX pathX_noDots).trans (by decide)
  have hd : (disk.entry 4).isDirectory := by
    rw [disk_live_entry (by decide)]
    decide
  obtain ⟨r, t, hrun, hyes, -⟩ :=
    newFile_ends disk_wellFormed (noDots_stays pathX_noDots) hparent hd (by decide) length .File none
  have hstands := hyes (by rw [hasks, hfree]; exact hlen)
  exact ⟨r, t, hrun, hstands.status, hstands⟩

/-- A file of two blocks. -/
theorem place_right_x : ∃ r t, newFile pathX 1000 .File none false disk = some (r, t) ∧ 0 ≤ r.status ∧
    RightPlace disk t 4 1000 ((newEntry 1000 .File none).setName (lastName pathX)) r := by
  obtain ⟨r, t, hrun, hstatus, -⟩ := @disk_newFile 1000 (by decide)
  have hbs : disk.bs = 640 := disk_frame.bs
  refine ⟨r, t, hrun, hstatus.ge, (place_right_iff disk_wellFormed (noDots_stays pathX_noDots)
    ((disk_lookupParent pathX pathX_noDots).trans (by decide)) (by rw [disk_live_entry (by decide)]; decide) (by decide)
    1000 .File none hrun hstatus.ge).mpr ⟨?_, .inl disk_reuses⟩⟩
  rw [hbs]
  decide

/-- A file of three blocks is given two. -/
theorem place_wrong_x : ∃ r t, newFile pathX 1900 .File none false disk = some (r, t) ∧ r.status = 0 ∧
    ¬ RightPlace disk t 4 1900 ((newEntry 1900 .File none).setName (lastName pathX)) r := by
  obtain ⟨r, t, hrun, hstatus, hstands⟩ := @disk_newFile 1900 (by decide)
  refine ⟨r, t, hrun, hstatus, fun h => ?_⟩
  have hd : (disk.load.entry 4).isDirectory := by
    change (disk.entry 4).isDirectory
    rw [disk_live_entry (by decide)]
    decide
  have hroot : disk.image.Live 4 := (disk_live 4).mpr (by decide)
  have hblocks : updiv 1900 640 ≤ 2 := ((stands_right_iff disk_wellFormed.load hroot hd hstands).mp h.load).1
  revert hblocks
  decide

end Thorn.FatSample

import Thorn.RenameEdits
import Thorn.FatMount
import Thorn.Library.Runs

set_option autoImplicit false

namespace Thorn.FatDriver
open ByteStore Paths FatTypes FatOperations FatImage LinkedChain

/-- The counter has changed by `a`, the number of free cells by `b`. -/
structure Drifts (s t : Fs) (a b : ℤ) : Prop where
  frame : SameFrame s t
  counter : t.blocksFree = s.blocksFree + a
  free : (t.freeList.length : ℤ) = s.freeList.length + b

namespace Drifts
variable {s t u : Fs} {a b a' b' : ℤ}

theorem refl (s : Fs) : Drifts s s 0 0 := ⟨.refl s, (add_zero _).symm, (add_zero _).symm⟩

theorem trans (h : Drifts s t a b) (h' : Drifts t u a' b') : Drifts s u (a + a') (b + b') where
  frame := h.frame.trans h'.frame
  counter := by rw [h'.counter, h.counter, add_assoc]
  free := by rw [h'.free, h.free, add_assoc]

theorem cast (h : Drifts s t a b) (ha : a = a') (hb : b = b') : Drifts s t a' b' := ha ▸ hb ▸ h

theorem addFree (s : Fs) (n : ℤ) : Drifts s (s.addFree n) n 0 := ⟨.addFree s n, rfl, (add_zero _).symm⟩

theorem still (hframe : SameFrame s t) (hcounter : t.blocksFree = s.blocksFree)
    (hfat : ∀ b < s.blockCount, t.fat b = s.fat b) : Drifts s t 0 0 where
  frame := hframe
  counter := hcounter.trans (add_zero _).symm
  free := by
    have hlist : t.freeList = s.freeList := by
      unfold Driver.freeList
      rw [show t.superblock.blockCount = s.superblock.blockCount from hframe.blockCount]
      refine List.filter_congr fun b hb => ?_
      rw [hfat b (List.mem_range.mp hb)]
    rw [hlist, add_zero]

section Cells
variable {f : ℕ} {v : ℤ}

theorem freeList_put (hg : Geometry s) (hf : f < s.blockCount) (v : ℤ) {b : ℕ} :
    b ∈ (s.putFAT v f).freeList ↔ b < s.blockCount ∧ (if b = f then toInt32 v else s.fat b) = 0 := by
  rw [mem_freeList]
  refine and_congr_right fun hb => ?_
  rw [putFAT_fat hg hf hb]

theorem putFAT_used (hg : Geometry s) (hf : f < s.blockCount) (hv : toInt32 v ≠ 0) (hold : s.fat f ≠ 0) :
    Drifts s (s.putFAT v f) 0 0 where
  frame := .putFAT s v f
  counter := (add_zero _).symm
  free := by
    have hperm : (s.putFAT v f).freeList.Perm s.freeList := by
      rw [List.perm_ext_iff_of_nodup (freeList_nodup _) (freeList_nodup _)]
      intro b
      rw [freeList_put hg hf, mem_freeList]
      refine and_congr_right fun _ => ?_
      split_ifs with hbf
      · rw [hbf]
        exact iff_of_false hv hold
      · rfl
    rw [hperm.length_eq, add_zero]

theorem putFAT_taken (hg : Geometry s) (hf : f < s.blockCount) (hv : toInt32 v ≠ 0) (hold : s.fat f = 0) :
    Drifts s (s.putFAT v f) 0 (-1) where
  frame := .putFAT s v f
  counter := (add_zero _).symm
  free := by
    have hperm : s.freeList.Perm (f :: (s.putFAT v f).freeList) := by
      have hnot : f ∉ (s.putFAT v f).freeList := fun hm => by
        have := ((freeList_put hg hf v).mp hm).2
        rw [if_pos rfl] at this
        exact hv this
      rw [List.perm_ext_iff_of_nodup (freeList_nodup _) (List.nodup_cons.mpr ⟨hnot, freeList_nodup _⟩)]
      intro b
      rw [List.mem_cons, freeList_put hg hf, mem_freeList]
      by_cases hbf : b = f
      · rw [hbf]
        exact iff_of_true ⟨hf, hold⟩ (.inl rfl)
      · rw [if_neg hbf, or_iff_right hbf]
    have hlen := hperm.length_eq
    rw [List.length_cons] at hlen
    omega

theorem putFAT_released (hg : Geometry s) (hf : f < s.blockCount) (hold : s.fat f ≠ 0) :
    Drifts s (s.putFAT 0 f) 0 1 where
  frame := .putFAT s 0 f
  counter := (add_zero _).symm
  free := by
    have hperm : (s.putFAT 0 f).freeList.Perm (f :: s.freeList) := by
      have hnot : f ∉ s.freeList := fun hm => hold (mem_freeList.mp hm).2
      rw [List.perm_ext_iff_of_nodup (freeList_nodup _) (List.nodup_cons.mpr ⟨hnot, freeList_nodup _⟩)]
      intro b
      rw [List.mem_cons, freeList_put hg hf, mem_freeList]
      by_cases hbf : b = f
      · rw [hbf, if_pos rfl]
        exact iff_of_true ⟨hf, rfl⟩ (.inl rfl)
      · rw [if_neg hbf, or_iff_right hbf]
    rw [hperm.length_eq, List.length_cons, Nat.cast_add, Nat.cast_one]

theorem clearCells (hg : Geometry s) {l : List ℕ} (hnodup : l.Nodup)
    (hl : ∀ b ∈ l, b < s.blockCount ∧ s.fat b ≠ 0) : Drifts s (s.clearCells l) 0 l.length := by
  induction l generalizing s with
  | nil => exact refl s
  | cons b l ih =>
    obtain ⟨hb, hnodup⟩ := List.nodup_cons.mp hnodup
    obtain ⟨hlt, hused⟩ := hl b List.mem_cons_self
    have hfirst := putFAT_released hg hlt hused
    have hrest : Drifts (s.putFAT 0 b) ((s.putFAT 0 b).clearCells l) 0 l.length := by
      refine ih (hfirst.frame.geometry hg) hnodup fun c hc => ?_
      obtain ⟨hlt', hused'⟩ := hl c (List.mem_cons_of_mem _ hc)
      refine ⟨hfirst.frame.blockCount ▸ hlt', ?_⟩
      rw [putFAT_fat hg hlt hlt', if_neg (fun he : c = b => hb (he ▸ hc))]
      exact hused'
    apply (hfirst.trans hrest).cast (add_zero _)
    rw [List.length_cons, Nat.cast_add, Nat.cast_one, add_comm]

theorem extend (hg : Geometry s) {last : ℕ} (hlast : last < s.blockCount) (hused : s.fat last ≠ 0) {fs : List ℕ}
    (hnodup : fs.Nodup) (hfs : ∀ f ∈ fs, f ∈ s.freeList ∧ 0 < f) :
    Drifts s (s.extend last fs) 0 (-fs.length) := by
  induction fs generalizing s last with
  | nil => exact refl s
  | cons f fs ih =>
    obtain ⟨hf, hnodup⟩ := List.nodup_cons.mp hnodup
    obtain ⟨hfree, hpos⟩ := hfs f List.mem_cons_self
    obtain ⟨hlt, hzero⟩ := mem_freeList.mp hfree
    have hsmall := hg.blockCount_small
    have hne : f ≠ last := fun he => hused (he ▸ hzero)
    have hlink : Drifts s (s.putFAT f last) 0 0 := by
      refine putFAT_used hg hlast ?_ hused
      rw [toInt32_of_range _ (by omega) (by omega)]
      omega
    have hg₁ := hlink.frame.geometry hg
    have hend : Drifts (s.putFAT f last) ((s.putFAT f last).putFAT FINAL f) 0 (-1) := by
      refine putFAT_taken hg₁ (hlink.frame.blockCount ▸ hlt) (by decide) ?_
      rw [putFAT_fat hg hlast hlt, if_neg hne]
      exact hzero
    have hstep := hlink.trans hend
    have hfat : ∀ {b : ℕ}, b < s.blockCount → b ≠ last → b ≠ f →
        ((s.putFAT f last).putFAT FINAL f).fat b = s.fat b := by
      intro b hb hbl hbf
      rw [putFAT_fat hg₁ (hlink.frame.blockCount ▸ hlt) (hlink.frame.blockCount ▸ hb), if_neg hbf,
        putFAT_fat hg hlast hb, if_neg hbl]
    have hrest : Drifts ((s.putFAT f last).putFAT FINAL f) (((s.putFAT f last).putFAT FINAL f).extend f fs) 0
        (-fs.length) := by
      refine ih (hstep.frame.geometry hg) (hstep.frame.blockCount ▸ hlt) ?_ hnodup fun c hc => ?_
      · rw [putFAT_fat hg₁ (hlink.frame.blockCount ▸ hlt) (hlink.frame.blockCount ▸ hlt), if_pos rfl]
        decide
      · obtain ⟨hc', hcpos⟩ := hfs c (List.mem_cons_of_mem _ hc)
        obtain ⟨hclt, hczero⟩ := mem_freeList.mp hc'
        refine ⟨mem_freeList.mpr ⟨hstep.frame.blockCount ▸ hclt, ?_⟩, hcpos⟩
        rw [hfat hclt (fun he => hused (he ▸ hczero)) fun he => hf (he ▸ hc)]
        exact hczero
    apply (hstep.trans hrest).cast (add_zero _)
    rw [List.length_cons, Nat.cast_add, Nat.cast_one]
    ring

end Cells

section Entries
variable {k : ℕ}

theorem storeEntry_blocksFree (s : Fs) (e : DirEntry) (o : ℕ) :
    (s.storeEntry e o).blocksFree = s.blocksFree := by
  unfold Driver.storeEntry
  split_ifs
  · rw [refresh_blocksFree]
    rfl
  · rw [refresh_blocksFree]
    rfl

theorem storeEntry (hg : Geometry s) (hk : s.IsSlot k) (e : DirEntry) :
    Drifts s (s.storeEntry e (320 * k)) 0 0 :=
  still (.storeEntry s e _) (storeEntry_blocksFree s e _) fun _ hb => storeEntry_fat hg hk e hb

theorem moved (hg : Geometry s) {j : ℕ} (hj : s.IsSlot j) (hk : s.IsSlot k) (e : DirEntry) :
    Drifts s (s.moved e (320 * j) k) 0 0 :=
  still (moved_frame s e _ k) rfl fun _ hb => moved_fat hg hj hk hb

theorem pokes (hg : Geometry s) (ps : List (ℕ × List UInt8))
    (h : ∀ p ∈ ps, (s.fatBlocks + 1) * s.bs ≤ p.1 ∧ p.1 < 2 ^ 63) : Drifts s (s.pokes ps) 0 0 :=
  still (.pokes s ps) (pokes_blocksFree s ps) fun _ hb => pokes_fat hg ps h hb

theorem freed (hg : Geometry s) (hk : s.IsSlot k) (hr : s.image.Readable (s.entry k)) (e : DirEntry) :
    Drifts s (((s.clearCells (s.image.chain k)).addFree (s.image.chain k).length).storeEntry e (320 * k))
      (s.image.chain k).length (s.image.chain k).length := by
  have howns : s.image.Owns (s.entry k) (s.image.chain k) := hr.owns
  have hcells := clearCells hg howns.nodup fun b hb => ⟨(howns.data b hb).2, howns.fat_ne_zero b hb⟩
  have hcount := hcells.trans (addFree _ ((s.image.chain k).length : ℤ))
  have hstore :=
    storeEntry (hcount.frame.geometry hg) (hcount.frame.isSlot.mpr hk) e
  exact (hcount.trans hstore).cast (by ring) (by ring)

theorem allocated (hg : Geometry s) {f : ℕ} (hf : f ∈ s.freeList) : Drifts s (s.allocated f) (-1) (-1) := by
  obtain ⟨hlt, hzero⟩ := mem_freeList.mp hf
  exact ((putFAT_taken hg hlt (by decide) hzero).trans (addFree _ (-1))).cast (by ring) (by ring)

end Entries

section Resize
variable {e : DirEntry}

theorem shrink_lt (hg : Geometry s) (h : s.image.Readable e) {size : ℕ} (hz : size ≠ 0)
    (hlt : updiv size s.bs < (s.image.chainOf e).length) : size < e.len := by
  have hm := chain_length hg h
  have hc := updiv_pos size s.bs hg.bs_pos (by omega)
  by_contra hle
  have hmono := updiv_mono hg.bs_pos (Nat.le_of_not_lt hle)
  omega

theorem zeroTail_blocksFree (s : Fs) (e : DirEntry) (size : ℕ) :
    (s.zeroTail e size).blocksFree = s.blocksFree := by
  unfold Driver.zeroTail
  split_ifs
  · rfl
  · exact pokes_blocksFree _ _

theorem zeroTail (hg : Geometry s) (h : s.image.Readable e) {size : ℕ} (hlt : size < e.len) :
    Drifts s (s.zeroTail e size) 0 0 :=
  still (.zeroTail s e size) (zeroTail_blocksFree s e size) fun _ hb => zeroTail_fat hg h hlt hb

theorem emptied (hg : Geometry s) (h : s.image.Readable e) :
    Drifts s (s.emptied e) (s.image.chainOf e).length ((s.image.chainOf e).length - 1) := by
  have hl : ∀ b ∈ s.image.chainOf e, b < s.blockCount ∧ s.fat b ≠ 0 :=
    fun b hb => ⟨(h.owns.data b hb).2, h.owns.fat_ne_zero b hb⟩
  have hcount := (clearCells hg h.owns.nodup hl).trans (addFree _ ((s.image.chainOf e).length : ℤ))
  obtain ⟨b, hb, hc⟩ := h.owns.start
  obtain ⟨hlt, -⟩ := hl b hc.head_mem
  have hfirst := putFAT_taken (v := FINAL) (hcount.frame.geometry hg) (hcount.frame.blockCount ▸ hlt) (by decide) (by
    rw [addFree_fat, clearCells_fat hg (fun x hx => (hl x hx).1) hlt, if_pos hc.head_mem])
  rw [Driver.emptied, hb]
  exact (hcount.trans hfirst).cast (by ring) (by ring)

theorem shortened (hg : Geometry s) (h : s.image.Readable e) {size : ℕ} (hz : size ≠ 0)
    (hlt : updiv size s.bs < (s.image.chainOf e).length) :
    Drifts s (s.shortened e size) ((s.image.chainOf e).length - updiv size s.bs)
      ((s.image.chainOf e).length - updiv size s.bs) := by
  have hc := updiv_pos size s.bs hg.bs_pos (by omega)
  have htail := zeroTail hg h (shrink_lt hg h hz hlt)
  have hg₁ := htail.frame.geometry hg
  have hfat : ∀ {b : ℕ}, b ∈ s.image.chainOf e →
      b < (s.zeroTail e size).blockCount ∧ (s.zeroTail e size).fat b ≠ 0 := by
    intro b hb
    have hbc := (h.owns.data b hb).2
    refine ⟨htail.frame.blockCount ▸ hbc, ?_⟩
    rw [zeroTail_fat hg h (shrink_lt hg h hz hlt) hbc]
    exact h.owns.fat_ne_zero b hb
  have hnodup := h.owns.nodup
  have hcount := (clearCells hg₁ (hnodup.sublist (List.drop_sublist (updiv size s.bs) _))
    fun b hb => hfat (List.mem_of_mem_drop hb)).trans
      (addFree _ (((s.image.chainOf e).drop (updiv size s.bs)).length : ℤ))
  have hget : (s.image.chainOf e).getD (updiv size s.bs - 1) 0 = (s.image.chainOf e)[updiv size s.bs - 1] :=
    List.getD_eq_getElem _ _ (by omega)
  have hlast := hfat (List.getElem_mem (show updiv size s.bs - 1 < (s.image.chainOf e).length by omega))
  have hnot : (s.image.chainOf e)[updiv size s.bs - 1] ∉ (s.image.chainOf e).drop (updiv size s.bs) := by
    refine List.disjoint_take_drop hnodup le_rfl ?_
    exact List.mem_take_iff_getElem.mpr ⟨updiv size s.bs - 1, by omega, rfl⟩
  have hend := putFAT_used (v := FINAL) (hcount.frame.geometry hg₁) (hcount.frame.blockCount ▸ hlast.1) (by decide) (by
    rw [addFree_fat, clearCells_fat hg₁ (fun x hx => (hfat (List.mem_of_mem_drop hx)).1) hlast.1, if_neg hnot]
    exact hlast.2)
  have hlen : (((s.image.chainOf e).drop (updiv size s.bs)).length : ℤ) =
      (s.image.chainOf e).length - updiv size s.bs := by
    rw [List.length_drop]
    omega
  rw [Driver.shortened, hget]
  exact ((htail.trans hcount).trans hend).cast (by rw [hlen]; ring) (by rw [hlen]; ring)

theorem lengthened (hw : WellFormed s) (h : s.image.Readable e) {size : ℕ} (hroom : s.HasRoom size)
    (hlt : (s.image.chainOf e).length < updiv size s.bs) :
    Drifts s (s.lengthened e size) (-(updiv size s.bs - 1)) (-(updiv size s.bs - 1)) := by
  have hg := hw.geometry
  have hmem := getLastD_mem h.owns.ne_nil
  have htake : (s.freeList.take (updiv size s.bs - 1)).length = updiv size s.bs - 1 := by
    rw [List.length_take, Nat.min_eq_left hroom.2]
  have hext := extend hg (h.owns.data _ hmem).2 (h.owns.fat_ne_zero _ hmem)
    ((freeList_nodup s).sublist (List.take_sublist (updiv size s.bs - 1) _)) fun f hf => by
      have hf := List.mem_of_mem_take hf
      have := (hw.free_data hf).1
      exact ⟨hf, by omega⟩
  rw [htake] at hext
  have hsub : ((updiv size s.bs - 1 : ℕ) : ℤ) = updiv size s.bs - 1 := by omega
  rw [Driver.lengthened, hsub]
  exact (hext.trans (addFree _ _)).cast (by ring) (by rw [hsub]; ring)

/-- What `resize` adds to the counter, for a file of `m` blocks. -/
def counted (s : Fs) (e : DirEntry) (size : ℕ) : ℤ :=
  let m := (s.image.chainOf e).length
  let c := updiv size s.bs
  if e.len = size then 0
  else if size = 0 then m
  else if m = c then 0
  else if c < m then m - c
  else -(c - 1)

/-- What it adds to the free blocks: a file keeps its first block. -/
def released (s : Fs) (e : DirEntry) (size : ℕ) : ℤ :=
  if e.len ≠ size ∧ size = 0 then (s.image.chainOf e).length - 1 else counted s e size

theorem reblocked (hw : WellFormed s) (h : s.image.Readable e) {size : ℕ} (hne : e.len ≠ size)
    (hroom : ¬ s.TooLarge e size) : Drifts s (s.reblocked e size) (counted s e size) (released s e size) := by
  have hg := hw.geometry
  simp only [counted, released, ne_eq, hne, not_false_eq_true, true_and, ite_false, Driver.reblocked]
  by_cases hz : size = 0
  · simp only [if_pos hz]
    exact emptied hg h
  simp only [if_neg hz]
  by_cases heq : (s.image.chainOf e).length = updiv size s.bs
  · simp only [if_pos heq]
    split_ifs with hlt
    · exact zeroTail hg h hlt
    · exact refl s
  simp only [if_neg heq]
  by_cases hlt : updiv size s.bs < (s.image.chainOf e).length
  · simp only [if_pos hlt]
    exact shortened hg h hz hlt
  · simp only [if_neg hlt]
    refine lengthened hw h ?_ (by omega)
    by_contra hno
    exact hroom ⟨by omega, hno⟩

theorem resized (hw : WellFormed s) {k : ℕ} (hk : s.IsSlot k) (hr : s.image.Readable (s.entry k)) {size : ℕ}
    (hroom : ¬ s.TooLarge (s.entry k) size) :
    Drifts s (s.resized (s.entry k) (320 * k) size) (counted s (s.entry k) size) (released s (s.entry k) size) := by
  unfold Driver.resized
  split_ifs with hne
  · simp only [counted, released, ne_eq, hne, not_true_eq_false, false_and, ite_false, ite_true]
    exact refl s
  · have hblocks := reblocked hw hr hne hroom
    have hstore :=
      storeEntry (hblocks.frame.geometry hw.geometry) (hblocks.frame.isSlot.mpr hk)
      ((s.entry k).setLength size)
    exact (hblocks.trans hstore).cast (add_zero _) (add_zero _)

theorem written (hw : WellFormed s) {k : ℕ} (hk : s.IsSlot k) (hr : s.image.Readable (s.entry k))
    {buffer : List UInt8} {offset : ℕ}
    (hroom : ¬ s.TooLarge (s.entry k) (max (s.entry k).len (offset + buffer.length)))
    (hin : offset / s.bs < (s.newChain (s.entry k) (max (s.entry k).len (offset + buffer.length))).length) :
    Drifts s (s.written (s.entry k) (320 * k) buffer offset)
      (counted s (s.entry k) (max (s.entry k).len (offset + buffer.length)))
      (released s (s.entry k) (max (s.entry k).len (offset + buffer.length))) := by
  have hresized := resized hw hk hr hroom
  have hframe := hresized.frame
  have hg := hframe.geometry hw.geometry
  have hspans := spans_range hg (fun b hb => hframe.isData.mpr
    (newChain_data (fun f hf => hw.free_data hf) hr _ b hb)) (offset / s.bs) offset hin buffer
  rw [hframe.bs] at hspans
  have hpokes := pokes hg _ (by rwa [hframe.bs])
  have hstore :=
    storeEntry (hpokes.frame.geometry hg) (hpokes.frame.isSlot.mpr (hframe.isSlot.mpr hk))
    ((s.entry k).setLength (max (s.entry k).len (offset + buffer.length)))
  exact ((hresized.trans hpokes).trans hstore).cast (by ring) (by ring)

end Resize

end Drifts

end Thorn.FatDriver

import Thorn.FatEffects

set_option autoImplicit false

namespace Thorn.FatDriver
open ByteStore Paths FatTypes FatOperations FatImage LinkedChain

def Driver.zeroTail (s : Fs) (e : DirEntry) (new_size : ℕ) : Fs :=
  if new_size % s.bs = 0 then s
  else s.pokes (zeroWrites (s.zeroStart (s.image.chainOf e) new_size) (e.len - new_size))

def Driver.emptied (s : Fs) (e : DirEntry) : Fs :=
  ((s.clearCells (s.image.chainOf e)).addFree (s.image.chainOf e).length).putFAT FINAL e.start

def Driver.shortened (s : Fs) (e : DirEntry) (new_size : ℕ) : Fs :=
  let l := s.image.chainOf e
  let c := updiv new_size s.bs
  (((s.zeroTail e new_size).clearCells (l.drop c)).addFree ((l.drop c).length : ℕ)).putFAT FINAL
    (l.getD (c - 1) 0 : ℕ)

/-- The state once blocks for the new size are appended: one less than it needs
in all, whatever the file had. -/
def Driver.lengthened (s : Fs) (e : DirEntry) (new_size : ℕ) : Fs :=
  let l := s.image.chainOf e
  let to_add := updiv new_size s.bs - 1
  (s.extend (l.getLastD 0) (s.freeList.take to_add)).addFree (-to_add)

/-- Enough free blocks for the growth `resize` sets out to do. -/
def Driver.HasRoom (s : Fs) (new_size : ℕ) : Prop :=
  s.freeList ≠ [] ∧ updiv new_size s.bs - 1 ≤ s.freeList.length

instance (s : Fs) (new_size : ℕ) : Decidable (s.HasRoom new_size) :=
  inferInstanceAs (Decidable (_ ∧ _))

/-- The blocks of the file before its entry is written, when `resize` succeeds. -/
def Driver.reblocked (s : Fs) (e : DirEntry) (new_size : ℕ) : Fs :=
  let m := (s.image.chainOf e).length
  let c := updiv new_size s.bs
  if new_size = 0 then s.emptied e
  else if m = c then if new_size < e.len then s.zeroTail e new_size else s
  else if c < m then s.shortened e new_size
  else s.lengthened e new_size

/-- `resize` runs out of space before it has changed anything. -/
def Driver.TooLarge (s : Fs) (e : DirEntry) (new_size : ℕ) : Prop :=
  (s.image.chainOf e).length < updiv new_size s.bs ∧ ¬ s.HasRoom new_size

instance (s : Fs) (e : DirEntry) (new_size : ℕ) : Decidable (s.TooLarge e new_size) :=
  inferInstanceAs (Decidable (_ ∧ _))

section Resize
variable {s : Fs}

theorem run_resize (hg : Geometry s) (hfree : ∀ f ∈ s.freeList, 0 < f) {e : DirEntry}
    (h : s.image.Readable e) (o new_size : ℕ) :
    resize e o new_size s = some (if e.len = new_size then ((0, e), s)
      else if s.TooLarge e new_size then ((-ENOSPC, e), s)
      else ((0, e.setLength new_size), (s.reblocked e new_size).storeEntry (e.setLength new_size) o)) := by
  have hbs := hg.bs_pos
  have hstart := h.owns.head h.owns.length_pos
  have hdata := h.owns.data _ (List.getElem_mem h.owns.length_pos)
  have h0 : e.start ≠ 0 := by
    have := hdata.1
    omega
  have hm : (s.image.chainOf e).length = max 1 (updiv e.len s.bs) := by
    rw [h.size, Image.blocksFor, hg.image_bs]
  obtain ⟨b, hb, hc⟩ := h.owns.start
  unfold resize
  rw [run_bind, run_get, Option.bind_some, run_ite]
  by_cases hsame : e.len = new_size
  · rw [if_pos hsame, if_pos hsame, run_pure]
  rw [if_neg hsame, if_neg hsame]
  simp only [run_bind, run_ite, if_neg h0, run_chainLength hg h.owns, Option.bind_some]
  by_cases hz : new_size = 0
  · have hnot : ¬ s.TooLarge e new_size := by
      rintro ⟨hlt, -⟩
      rw [hz, updiv_zero] at hlt
      omega
    rw [if_pos hz, if_neg hnot, run_forget hg h.owns]
    simp only [Option.bind_some, run_writeFAT, run_writeEntry, run_pure, Driver.reblocked, if_pos hz,
      Driver.emptied]
  rw [if_neg hz]
  have hc1 := updiv_pos new_size s.bs hbs (by omega)
  by_cases heq : (s.image.chainOf e).length = updiv new_size s.bs
  · have hnot : ¬ s.TooLarge e new_size := fun ht => by
      have := ht.1
      omega
    rw [if_pos heq, if_neg hnot]
    by_cases hlt : new_size < e.len
    · simp only [if_pos hlt, run_zeroOutFree hg h new_size hlt, Option.bind_some, lt_self_iff_false, ite_false,
        run_writeEntry, run_pure, Driver.reblocked, if_neg hz, if_pos heq]
      rfl
    · simp only [if_neg hlt, run_pure, Option.bind_some, lt_self_iff_false, ite_false,
        run_writeEntry, Driver.reblocked, if_neg hz, if_pos heq]
  rw [if_neg heq]
  by_cases hshrink : updiv new_size s.bs < (s.image.chainOf e).length
  · have hnot : ¬ s.TooLarge e new_size := fun ht => by
      have := ht.1
      omega
    have hlt : new_size < e.len := by
      by_contra hle
      have h₁ := (updiv_le_iff e.len s.bs (updiv new_size s.bs) hbs).mpr
        ((Nat.le_of_not_lt hle).trans ((updiv_le_iff new_size s.bs _ hbs).mp le_rfl))
      omega
    have hnote := run_noteBlocks hc
    have hdrop : ((s.image.chainOf e).map fun x : ℕ => (x : ℤ)).drop (updiv new_size s.bs) =
        ((s.image.chainOf e).drop (updiv new_size s.bs)).map fun x : ℕ => (x : ℤ) := by
      rw [List.map_drop]
    have hget : ((s.image.chainOf e).map fun x : ℕ => (x : ℤ)).getD (updiv new_size s.bs - 1) 0 =
        ((s.image.chainOf e).getD (updiv new_size s.bs - 1) 0 : ℕ) := by
      rw [List.getD_eq_getElem _ _ (by rw [List.length_map]; omega), List.getElem_map,
        List.getD_eq_getElem _ _ (by omega)]
    rw [if_pos hshrink, if_neg hnot, hb, hnote]
    simp only [Option.bind_some, run_zeroOutFree hg h new_size hlt, lt_self_iff_false, ite_false, hdrop,
      run_freeBlocks, if_pos hc1, run_writeFAT, run_writeEntry, run_pure, hget, Driver.reblocked, if_neg hz,
      if_neg heq, if_pos hshrink]
    rfl
  · have hlt : (s.image.chainOf e).length < updiv new_size s.bs := by omega
    rw [if_neg hshrink]
    simp only [run_hasFree, Option.bind_some]
    have hcond : decide (s.freeList ≠ [] ∧ updiv new_size s.superblock.blockSize - 1 ≤ s.freeList.length) =
        true ↔ s.HasRoom new_size := decide_eq_true_iff
    by_cases hroom : s.HasRoom new_size
    · have hnot : ¬ s.TooLarge e new_size := fun ht => ht.2 hroom
      have hlast := h.owns.data _ (List.getLast_mem hc.ne_nil)
      have hfinal := h.owns.fat_ne_zero _ (List.getLast_mem hc.ne_nil)
      rw [image_fat] at hfinal
      have hgetD : (s.image.chainOf e).getLastD 0 = (s.image.chainOf e).getLast hc.ne_nil := by
        rw [List.getLastD_eq_getLast?, List.getLast?_eq_getLast_of_ne_nil hc.ne_nil]
        rfl
      rw [if_neg (not_not.mpr (hcond.mpr hroom)), if_neg hnot, hb,
        run_tailLoop hc h.owns.data _ (length_le_fuel hg h.owns), Option.bind_some,
        run_addBlocks hg _ _ hlast.2 hfinal hfree hroom.2]
      simp only [Option.bind_some, lt_self_iff_false, ite_false, run_addBlocksFree, run_writeEntry, run_pure,
        Driver.reblocked, if_neg hz, if_neg heq, if_neg hshrink, Driver.lengthened, hgetD]
      rfl
    · rw [if_pos (mt hcond.mp hroom), if_pos ⟨hlt, hroom⟩, run_pure]

def Driver.resized (s : Fs) (e : DirEntry) (o new_size : ℕ) : Fs :=
  if e.len = new_size then s else (s.reblocked e new_size).storeEntry (e.setLength new_size) o

theorem setLength_self (e : DirEntry) : e.setLength e.len = e := by
  simp [DirEntry.setLength, DirEntry.len]

theorem chain_length (hg : Geometry s) {e : DirEntry} (h : s.image.Readable e) :
    (s.image.chainOf e).length = max 1 (updiv e.len s.bs) := by
  rw [h.size, Image.blocksFor, hg.image_bs]

theorem run_resize_eq (hg : Geometry s) (hfree : ∀ f ∈ s.freeList, 0 < f) {e : DirEntry}
    (h : s.image.Readable e) (o new_size : ℕ) :
    resize e o new_size s = some (if s.TooLarge e new_size then ((-ENOSPC, e), s)
      else ((0, e.setLength new_size), s.resized e o new_size)) := by
  rw [run_resize hg hfree h]
  by_cases hsame : e.len = new_size
  · have hnot : ¬ s.TooLarge e new_size := by
      rintro ⟨hlt, -⟩
      rw [chain_length hg h, hsame] at hlt
      omega
    rw [if_pos hsame, if_neg hnot, Driver.resized, if_pos hsame, ← hsame, setLength_self]
  · rw [if_neg hsame, Driver.resized, if_neg hsame]

def Driver.newChain (s : Fs) (e : DirEntry) (new_size : ℕ) : List ℕ :=
  let l := s.image.chainOf e
  let c := updiv new_size s.bs
  if max 1 c ≤ l.length then l.take (max 1 c) else l ++ s.freeList.take (c - 1)

end Resize

section Blocks
variable {s : Fs}

theorem pokes_fat (hg : Geometry s) (ps : List (ℕ × List UInt8))
    (h : ∀ p ∈ ps, (s.fatBlocks + 1) * s.bs ≤ p.1 ∧ p.1 < 2 ^ 63) {b : ℕ} (hb : b < s.blockCount) :
    (s.pokes ps).fat b = s.fat b := by
  have he := hg.fat_end hb
  have hg' := (SameFrame.pokes s ps).geometry hg
  have hlen := hg.length
  have hoff := hg.offset
  rw [hg'.fat_eq ((SameFrame.pokes s ps).blockCount ▸ hb), hg.fat_eq hb, (SameFrame.pokes s ps).bs,
    pokes_data s ps fun p hp => by have := (h p hp).2; omega,
    slice_patches _ _ _ _ fun p hp => .inl (by have := (h p hp).1; omega)]

theorem zeroTail_writes (hg : Geometry s) {e : DirEntry} (h : s.image.Readable e) {new_size : ℕ}
    (hnew : new_size < e.len) :
    ∀ p ∈ zeroWrites (s.zeroStart (s.image.chainOf e) new_size) (e.len - new_size),
      (s.fatBlocks + 1) * s.bs ≤ p.1 ∧ p.1 < 2 ^ 63 := by
  have hbs := hg.bs_pos
  have hle : e.len ≤ (s.image.chainOf e).length * s.bs := by
    rw [← updiv_le_iff _ _ _ hbs, chain_length hg h]
    omega
  have hj : new_size / s.bs < (s.image.chainOf e).length := (Nat.div_lt_iff_lt_mul hbs).mpr (by omega)
  have hb := h.owns.data _ (List.getElem_mem hj)
  have hrange := data_range hg hb
  have hmod := Nat.mod_lt new_size hbs
  have hlen := hg.length
  have htotal : (s.image.chainOf e).length * s.bs < 2 ^ 32 :=
    (Nat.mul_le_mul_right _ h.owns.length_le).trans_lt hg.small
  intro p hp
  have hw := zeroRun_within _ _ _ p hp
  simp only [Driver.zeroStart, List.getD_eq_getElem _ _ hj] at hw
  omega

theorem zeroTail_fat (hg : Geometry s) {e : DirEntry} (h : s.image.Readable e) {new_size : ℕ}
    (hnew : new_size < e.len) {b : ℕ} (hb : b < s.blockCount) : (s.zeroTail e new_size).fat b = s.fat b := by
  unfold Driver.zeroTail
  split_ifs
  · rfl
  · exact pokes_fat hg _ (zeroTail_writes hg h hnew) hb

theorem SameFrame.zeroTail (s : Fs) (e : DirEntry) (new_size : ℕ) : SameFrame s (s.zeroTail e new_size) := by
  unfold Driver.zeroTail
  split_ifs
  · exact .refl s
  · exact .pokes s _

theorem SameFrame.shortened (s : Fs) (e : DirEntry) (new_size : ℕ) : SameFrame s (s.shortened e new_size) :=
  (((SameFrame.zeroTail s e new_size).trans (.clearCells _ _)).trans (.addFree _ _)).trans (.putFAT _ _ _)

theorem SameFrame.emptied (s : Fs) (e : DirEntry) : SameFrame s (s.emptied e) :=
  ((SameFrame.clearCells s _).trans (.addFree _ _)).trans (.putFAT _ _ _)

theorem SameFrame.lengthened (s : Fs) (e : DirEntry) (new_size : ℕ) : SameFrame s (s.lengthened e new_size) :=
  (SameFrame.extend s _ _).trans (.addFree _ _)

theorem SameFrame.reblocked (s : Fs) (e : DirEntry) (new_size : ℕ) : SameFrame s (s.reblocked e new_size) := by
  simp only [Driver.reblocked]
  split_ifs
  exacts [.emptied s e, .zeroTail s e _, .refl s, .shortened s e _, .lengthened s e _]

theorem extend_fat (hg : Geometry s) {a b : ℕ} {fs : List ℕ} (ha : a < s.blockCount)
    (hfs : ∀ f ∈ fs, f < s.blockCount) (hb : b < s.blockCount) (hne : b ≠ a) (hnot : b ∉ fs) :
    (s.extend a fs).fat b = s.fat b := by
  induction fs generalizing s a with
  | nil => rfl
  | cons f fs ih =>
    have hf := hfs f (by simp)
    have hframe₁ := SameFrame.putFAT s f a
    have hframe := hframe₁.trans (SameFrame.putFAT _ FINAL f)
    have hbf : b ≠ f := fun he => hnot (by simp [he])
    rw [Driver.extend, ih (hframe.geometry hg) (hframe.blockCount ▸ hf)
      (fun c hc => hframe.blockCount ▸ hfs c (by simp [hc])) (hframe.blockCount ▸ hb) hbf
      (fun hc => hnot (by simp [hc])), putFAT_final_fat (hframe₁.geometry hg) (hframe₁.blockCount ▸ hf)
      (hframe₁.blockCount ▸ hb), if_neg hbf, putFAT_block_fat hg ha hb hf, if_neg hne]

theorem cut_fat {t : Fs} (hg : Geometry t) {l : List ℕ} (hl : ∀ x ∈ l, x < t.blockCount)
    {m n : ℕ} (hn : n < l.length) (hm : m = 0 ∧ n = 0 ∨ m = n + 1) {b : ℕ} (hb : b < t.blockCount) :
    ((t.clearCells (l.drop m)).putFAT FINAL l[n]).fat b =
      if b = l[n] then FINAL else if b ∈ l.drop (n + 1) then 0 else t.fat b := by
  have hframe := SameFrame.clearCells t (l.drop m)
  rw [putFAT_final_fat (hframe.geometry hg) (hframe.blockCount ▸ hl _ (List.getElem_mem hn))
    (hframe.blockCount ▸ hb), clearCells_fat hg (fun x hx => hl x (List.mem_of_mem_drop hx)) hb]
  by_cases hbn : b = l[n]
  · rw [if_pos hbn, if_pos hbn]
  · rw [if_neg hbn, if_neg hbn]
    refine if_congr ?_ rfl rfl
    rcases hm with ⟨rfl, rfl⟩ | rfl
    · rw [List.drop_eq_getElem_cons hn, List.mem_cons, or_iff_right hbn]
    · rfl

theorem cut_owns {t u : Fs} (hu : SameFrame s u) {e : DirEntry} {l : List ℕ} (h : s.image.Owns e l)
    {n : ℕ} (hn : n < l.length) (ht : ∀ b < s.blockCount, t.fat b = s.fat b)
    (hcut : ∀ b < s.blockCount, u.fat b = if b = l[n] then FINAL else if b ∈ l.drop (n + 1) then 0 else t.fat b) :
    u.image.Owns e (l.take (n + 1)) := by
  have hnd := h.nodup
  have hdata : ∀ b ∈ l.take (n + 1), s.image.IsData b := fun b hb => h.data b (List.mem_of_mem_take hb)
  refine h.take n hn ?_ (fun b hb => ?_) fun b hb => hu.isData.mpr (hdata b hb)
  · rw [image_fat, hcut _ (h.data _ (List.getElem_mem hn)).2, if_pos rfl]
  · obtain ⟨i, hi, rfl⟩ := List.mem_iff_getElem.mp hb
    simp only [List.length_take] at hi
    rw [List.getElem_take]
    have hlt := (h.data l[i] (List.getElem_mem (by omega))).2
    have hne : l[i] ≠ l[n] := fun he => by
      have := (List.Nodup.getElem_inj_iff hnd).mp he
      omega
    have hdrop : l[i] ∉ l.drop (n + 1) := fun hm => by
      refine List.disjoint_take_drop hnd (le_refl (n + 1)) ?_ hm
      exact List.mem_iff_getElem.mpr ⟨i, by simp; omega, by rw [List.getElem_take]⟩
    rw [image_fat, image_fat, hcut _ hlt, if_neg hne, if_neg hdrop, ht _ hlt]

end Blocks

section Chains
variable {s : Fs} {e : DirEntry}

theorem reblocked_cases (hg : Geometry s) (h : s.image.Readable e) (new_size : ℕ) :
    (∃ n, ∃ hn : n < (s.image.chainOf e).length, n + 1 = max 1 (updiv new_size s.bs) ∧
      ∀ b < s.blockCount, (s.reblocked e new_size).fat b =
        if b = (s.image.chainOf e)[n] then FINAL
        else if b ∈ (s.image.chainOf e).drop (n + 1) then 0 else s.fat b) ∨
    (s.image.chainOf e).length < max 1 (updiv new_size s.bs) ∧ s.reblocked e new_size = s.lengthened e new_size := by
  have hbs := hg.bs_pos
  have hpos := h.owns.length_pos
  have hl := fun x hx => (h.owns.data x hx).2
  have hstart := h.owns.head hpos
  have hm := chain_length hg h
  have hlast := h.owns.fat_last
  by_cases hz : new_size = 0
  · refine .inl ⟨0, hpos, by rw [hz, updiv_zero]; rfl, fun b hb => ?_⟩
    rw [Driver.reblocked, if_pos hz, Driver.emptied, hstart]
    exact cut_fat hg hl hpos (.inl ⟨rfl, rfl⟩) hb
  have hc1 := updiv_pos new_size s.bs hbs (by omega)
  by_cases heq : (s.image.chainOf e).length = updiv new_size s.bs
  · refine .inl ⟨updiv new_size s.bs - 1, by omega, by omega, fun b hb => ?_⟩
    have hfat : (s.reblocked e new_size).fat b = s.fat b := by
      simp only [Driver.reblocked, if_neg hz, if_pos heq]
      split_ifs with hlt
      · exact zeroTail_fat hg h hlt hb
      · rfl
    rw [hfat]
    split_ifs with hbl hbd
    · rw [List.getLast_eq_getElem, image_fat] at hlast
      simp only [heq] at hlast
      rw [hbl, hlast]
    · rw [List.drop_of_length_le (by omega)] at hbd
      cases hbd
    · rfl
  by_cases hshrink : updiv new_size s.bs < (s.image.chainOf e).length
  · have hlt : new_size < e.len := by
      by_contra hle
      have h₁ := (updiv_le_iff e.len s.bs (updiv new_size s.bs) hbs).mpr
        ((Nat.le_of_not_lt hle).trans ((updiv_le_iff new_size s.bs _ hbs).mp le_rfl))
      omega
    have hframe := SameFrame.zeroTail s e new_size
    refine .inl ⟨updiv new_size s.bs - 1, by omega, by omega, fun b hb => ?_⟩
    have hcut :=
      cut_fat (hframe.geometry hg) (fun x hx => hframe.blockCount ▸ hl x hx) (m := updiv new_size s.bs)
      (n := updiv new_size s.bs - 1) (by omega)
      (.inr (by omega)) (hframe.blockCount ▸ hb)
    rw [zeroTail_fat hg h hlt hb] at hcut
    have hget : (s.image.chainOf e).getD (updiv new_size s.bs - 1) 0 =
        (s.image.chainOf e)[updiv new_size s.bs - 1] := List.getD_eq_getElem _ _ (by omega)
    simp only [Driver.reblocked, if_neg hz, if_neg heq, if_pos hshrink, Driver.shortened, hget]
    exact hcut
  · exact .inr ⟨by omega, by simp only [Driver.reblocked, if_neg hz, if_neg heq, if_neg hshrink]⟩

theorem getLastD_owns (h : s.image.Readable e) :
    (s.image.chainOf e).getLastD 0 = (s.image.chainOf e).getLast h.owns.ne_nil := by
  rw [List.getLastD_eq_getLast?, List.getLast?_eq_getLast_of_ne_nil h.owns.ne_nil]
  rfl

theorem updiv_mono {m n d : ℕ} (hd : 0 < d) (h : m ≤ n) : updiv m d ≤ updiv n d := by
  apply (updiv_le_iff m d _ hd).mpr
  exact h.trans ((updiv_le_iff n d _ hd).mp le_rfl)

section Rule
variable {R : Fs → Fs → Prop} {G : Fs → Prop} {C : Fs → ℕ → ℤ → Prop}

theorem TableRule.shrunk (hR : TableRule R G C) (hg : Geometry s) (h : s.image.Readable e) {size : ℕ}
    (hlt : size < e.len) (hz : G (s.zeroTail e size))
    (hcells : ∀ b ∈ s.image.chainOf e, ∀ v, C (s.zeroTail e size) b v) :
    R (s.zeroTail e size) (s.reblocked e size) := by
  have hcut : ∀ {m : List ℕ} {b : ℕ} (n : ℤ), m ⊆ s.image.chainOf e → b ∈ s.image.chainOf e →
      R (s.zeroTail e size) ((((s.zeroTail e size).clearCells m).addFree n).putFAT FINAL b) := by
    intro m b n hm hb
    have hclear := hR.trans (hR.clearCells hz fun c hc => hcells c (hm hc) 0) (hR.addFree _ n)
    exact hR.trans hclear (hR.putFAT (hR.keeps hclear hz) (hR.cell hclear (hcells b hb FINAL)))
  simp only [Driver.reblocked]
  split_ifs with h0 heq hc
  · subst h0
    have hself : s.zeroTail e 0 = s := if_pos (Nat.zero_mod _)
    have hstart := h.owns.head h.owns.length_pos
    have hempty := hcut (s.image.chainOf e).length (List.Subset.refl _) (List.getElem_mem h.owns.length_pos)
    rw [hself] at hempty ⊢
    rwa [Driver.emptied, hstart]
  · exact hR.refl _
  · rw [Driver.shortened, List.getD_eq_getElem _ _ (by omega)]
    exact hcut _ (List.drop_subset _ _) (List.getElem_mem _)
  · have hm := chain_length hg h
    have hmono := updiv_mono hg.bs_pos hlt.le
    have hpos := updiv_pos size s.bs hg.bs_pos (Nat.pos_of_ne_zero h0)
    omega

theorem TableRule.grown (hR : TableRule R G C) (hg : Geometry s) (h : s.image.Readable e) {size : ℕ}
    (hlt : e.len < size) (hs : G s) (hcells : ∀ b ∈ s.image.chainOf e, ∀ v, C s b v)
    (hfree : ∀ b ∈ s.freeList, ∀ v, C s b v) : R s (s.reblocked e size) := by
  have hm := chain_length hg h
  have hmono := updiv_mono hg.bs_pos hlt.le
  have hpos := updiv_pos size s.bs hg.bs_pos (by omega)
  simp only [Driver.reblocked]
  rw [if_neg (by omega)]
  split_ifs with heq hn hc
  · omega
  · exact hR.refl s
  · omega
  · rw [Driver.lengthened, getLastD_owns h]
    exact hR.trans (hR.extend hs (hcells _ (List.getLast_mem h.owns.ne_nil)) fun f hf =>
      hfree f (List.mem_of_mem_take hf)) (hR.addFree _ _)

end Rule

theorem freeList_apart (h : s.image.Readable e) : ((s.image.chainOf e) ++ s.freeList).Nodup := by
  refine List.nodup_append.mpr ⟨h.owns.nodup, freeList_nodup s, fun a ha b hb he => ?_⟩
  have hne := h.owns.fat_ne_zero a ha
  rw [image_fat] at hne
  exact hne (he ▸ (mem_freeList.mp hb).2)

theorem reblocked_owns (hg : Geometry s) (hfree : ∀ f ∈ s.freeList, s.image.IsData f) (h : s.image.Readable e)
    (new_size : ℕ) : (s.reblocked e new_size).image.Owns e (s.newChain e new_size) := by
  rcases reblocked_cases hg h new_size with ⟨n, hn, hsize, hcut⟩ | ⟨hgrow, heq⟩
  · rw [Driver.newChain, if_pos (by omega), ← hsize]
    exact cut_owns (SameFrame.reblocked s e new_size) h.owns hn (fun _ _ => rfl) hcut
  · have htake : ∀ f ∈ s.freeList.take (updiv new_size s.bs - 1), f ∈ s.freeList := fun f hf =>
      List.mem_of_mem_take hf
    have hnd : ((s.image.chainOf e) ++ s.freeList.take (updiv new_size s.bs - 1)).Nodup :=
      (freeList_apart h).sublist ((List.take_sublist _ _).append_left _)
    have howns := owns_extend hg h.owns (fun f hf => hfree f (htake f hf)) hnd
    rw [heq, Driver.newChain, if_neg (by omega)]
    simp only [Driver.lengthened, getLastD_owns h]
    exact howns

theorem reblocked_fat_other (hg : Geometry s) (h : s.image.Readable e) {new_size b : ℕ}
    (hb : b < s.blockCount) (hl : b ∉ s.image.chainOf e)
    (hn : b ∉ s.newChain e new_size) : (s.reblocked e new_size).fat b = s.fat b := by
  rcases reblocked_cases hg h new_size with ⟨n, hn', -, hcut⟩ | ⟨hgrow, heq⟩
  · have hne : b ≠ (s.image.chainOf e)[n] := fun he => hl (he ▸ List.getElem_mem hn')
    rw [hcut b hb, if_neg hne, if_neg fun hm => hl (List.mem_of_mem_drop hm)]
  · rw [Driver.newChain, if_neg (by omega)] at hn
    have hlast := List.getLast_mem h.owns.ne_nil
    rw [heq, Driver.lengthened, addFree_fat, getLastD_owns h]
    exact extend_fat hg (h.owns.data _ hlast).2
      (fun f hf => (mem_freeList.mp (List.mem_of_mem_take hf)).1) hb (fun he => hl (he ▸ hlast))
      fun hm => hn (List.mem_append_right _ hm)

theorem reblocked_fat_freed (hg : Geometry s) (h : s.image.Readable e) {new_size b : ℕ}
    (hl : b ∈ s.image.chainOf e) (hn : b ∉ s.newChain e new_size) : (s.reblocked e new_size).fat b = 0 := by
  rcases reblocked_cases hg h new_size with ⟨n, hn', hsize, hcut⟩ | ⟨hgrow, heq⟩
  · rw [Driver.newChain, if_pos (by omega), ← hsize] at hn
    have hdrop : b ∈ (s.image.chainOf e).drop (n + 1) := by
      rw [← List.take_append_drop (n + 1) (s.image.chainOf e), List.mem_append] at hl
      exact hl.resolve_left hn
    have hkept : (s.image.chainOf e)[n] ∈ (s.image.chainOf e).take (n + 1) :=
      List.mem_iff_getElem.mpr ⟨n, by simp; omega, by rw [List.getElem_take]⟩
    have hne : b ≠ (s.image.chainOf e)[n] := fun he => hn (he ▸ hkept)
    rw [hcut b (h.owns.data b hl).2, if_neg hne, if_pos hdrop]
  · rw [Driver.newChain, if_neg (by omega)] at hn
    exact absurd (List.mem_append_left _ hl) hn

theorem newChain_data (hfree : ∀ f ∈ s.freeList, s.image.IsData f) (h : s.image.Readable e) (new_size : ℕ) :
    ∀ b ∈ s.newChain e new_size, s.image.IsData b := by
  intro b hb
  simp only [Driver.newChain] at hb
  split_ifs at hb
  · exact h.owns.data b (List.mem_of_mem_take hb)
  · rcases List.mem_append.mp hb with hb | hb
    · exact h.owns.data b hb
    · exact hfree b (List.mem_of_mem_take hb)

/-- No file becomes longer than the partition can hold. -/
theorem tooLarge_huge (hg : Geometry s) (h : s.image.Readable e) {new_size : ℕ} (hsize : 2 ^ 33 ≤ new_size) :
    s.TooLarge e new_size := by
  have hbs := hg.bs_pos
  have hsmall : s.blockCount * s.bs < 2 ^ 32 := hg.small
  have hblock : s.bs ≤ s.blockCount * s.bs := Nat.le_mul_of_pos_left _ (Nat.zero_lt_of_lt hg.inside)
  have hmany : s.blockCount + 1 < updiv new_size s.bs := by
    rw [← not_le, updiv_le_iff _ _ _ hbs, Nat.succ_mul]
    omega
  have hchain : (s.image.chainOf e).length ≤ s.blockCount := h.owns.length_le
  have hfree : s.freeList.length ≤ s.blockCount := (List.length_filter_le _ _).trans List.length_range.le
  exact ⟨by omega, fun hroom => absurd hroom.2 (by omega)⟩

theorem newChain_length (h : s.image.Readable e) {new_size : ℕ}
    (hroom : ¬ s.TooLarge e new_size) : max 1 (updiv new_size s.bs) ≤ (s.newChain e new_size).length := by
  have hpos := h.owns.length_pos
  simp only [Driver.newChain]
  split_ifs with hle
  · rw [List.length_take]
    omega
  · have hlt : (s.image.chainOf e).length < updiv new_size s.bs := by omega
    have hr : s.HasRoom new_size := by
      by_contra hno
      exact hroom ⟨hlt, hno⟩
    have := hr.2
    rw [List.length_append, List.length_take]
    omega

end Chains

end Thorn.FatDriver

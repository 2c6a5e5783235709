import Thorn.OtherFiles
import Thorn.ResizeBlocks

set_option autoImplicit false

namespace Thorn.FatDriver
open ByteStore Paths FatTypes FatOperations FatImage LinkedChain

/-- A byte that `resize` of the file in slot `k` clears. -/
def Driver.Clears (s : Fs) (k size p : ℕ) : Prop := size < (s.entry k).len ∧ size % s.bs ≠ 0 ∧
  s.place k size ≤ p ∧ p < s.place k size + ((s.entry k).len - size)

instance (s : Fs) (k size p : ℕ) : Decidable (s.Clears k size p) := inferInstanceAs (Decidable (_ ∧ _ ∧ _ ∧ _))

section Places
variable {s t : Fs} {k p : ℕ}

theorem place_block (hg : Geometry s) {i : ℕ} (hi : i < (s.image.chain k).length * s.bs) :
    s.place k i / s.bs ∈ s.image.chain k ∧ s.place k i / s.bs = (s.image.chain k).getD (i / s.bs) 0 := by
  have hbs := hg.bs_pos
  have hlt : i / s.bs < (s.image.chain k).length := (Nat.div_lt_iff_lt_mul hbs).mpr hi
  have hmod := Nat.mod_lt i hbs
  have hdiv : s.place k i / s.bs = (s.image.chain k).getD (i / s.bs) 0 := by
    rw [Driver.place, Nat.mul_comm, Nat.mul_add_div hbs, Nat.div_eq_of_lt hmod, Nat.add_zero]
  refine ⟨?_, hdiv⟩
  rw [hdiv, List.getD_eq_getElem _ _ hlt]
  exact List.getElem_mem hlt

theorem place_inj (hg : Geometry s) (hn : (s.image.chain k).Nodup) {i j : ℕ}
    (hi : i < (s.image.chain k).length * s.bs) (hj : j < (s.image.chain k).length * s.bs)
    (h : s.place k i = s.place k j) : i = j := by
  have hbs := hg.bs_pos
  have hi' : i / s.bs < (s.image.chain k).length := (Nat.div_lt_iff_lt_mul hbs).mpr hi
  have hj' : j / s.bs < (s.image.chain k).length := (Nat.div_lt_iff_lt_mul hbs).mpr hj
  have hblock : (s.image.chain k)[i / s.bs] = (s.image.chain k)[j / s.bs] := by
    have := congrArg (· / s.bs) h
    simp only [(place_block hg hi).2, (place_block hg hj).2] at this
    rwa [List.getD_eq_getElem _ _ hi', List.getD_eq_getElem _ _ hj'] at this
  have hquot : i / s.bs = j / s.bs := (hn.getElem_inj_iff).mp hblock
  have hrest : i % s.bs = j % s.bs := by
    rw [Driver.place, Driver.place, hquot] at h
    omega
  rw [← Nat.div_add_mod' i s.bs, ← Nat.div_add_mod' j s.bs, hquot, hrest]

theorem SameFrame.place (h : SameFrame s t) (hc : t.image.chain k = s.image.chain k) (i : ℕ) :
    t.place k i = s.place k i := by
  rw [Driver.place, Driver.place, hc, h.bs]

theorem place_prefix (h : SameFrame s t) {l : List ℕ} {i : ℕ} (hl : t.image.chain k = l)
    (hi : i / s.bs < l.length) (hi' : i / s.bs < (s.image.chain k).length)
    (hsame : l[i / s.bs] = (s.image.chain k)[i / s.bs]) : t.place k i = s.place k i := by
  rw [Driver.place, Driver.place, hl, h.bs, List.getD_eq_getElem _ _ hi, List.getD_eq_getElem _ _ hi', hsame]

theorem content_byte (hg : Geometry s) (h : s.image.Readable (s.entry k)) {i : ℕ} (hi : i < (s.entry k).len) :
    (s.content (s.entry k))[i]? = some (s.data (s.place k i)) := by
  have hle := len_le_chain hg h
  rw [Driver.content, List.getElem?_take_of_lt hi, gather_getElem? _ _ _ hg.bs_pos (hi.trans_le hle)]
  rfl

end Places

section Bytes
variable {s t : Fs} {k p : ℕ}

theorem OnlyTable.data (h : OnlyTable s t) (hp : (s.fatBlocks + 1) * s.bs ≤ p) : t.data p = s.data p :=
  (slice_eq_iff _ _ p 1).mp (h.slice p 1 hp) p le_rfl (Nat.lt_succ_self p)

theorem data_area (hp : s.image.IsData (p / s.bs)) : (s.fatBlocks + 1) * s.bs ≤ p :=
  (Nat.mul_le_mul_right _ hp.1).trans (Nat.div_mul_le_self p s.bs)

theorem stored_data (hg : Geometry s) (hk : s.Takes k) (e : DirEntry) (hp : ¬ (320 * k ≤ p ∧ p < 320 * k + 320)) :
    (s.storeEntry e (320 * k)).data p = s.data p := by
  have hbehind := hk.behind
  have hbound := slot_bound hg hk.slot
  have hoffset := hg.offset
  rw [storeEntry_eq hg, refresh_data, Driver.putEntries, if_neg (by omega), Driver.putEntry,
    poke_data _ _ _ (by omega), patch_outside _ _ _ _ (by rw [DirEntry.encode_length]; omega)]

theorem cut_data (hw : WellFormed s) (hk : s.image.Live k) (hr : k ≠ s.image.rootSlot) {size : ℕ}
    (hlt : size < (s.entry k).len) (hdata : s.image.IsData (p / s.bs)) (hp : ¬ (320 * k ≤ p ∧ p < 320 * k + 320)) :
    (s.resized (s.entry k) (320 * k) size).data p = (s.zeroTail (s.entry k) size).data p := by
  have hg := hw.geometry
  have hzero := SameFrame.zeroTail s (s.entry k) size
  have honly := reblocked_shrunk hg (e := s.entry k) (hw.image.readable hk) hlt
  have hframe := hzero.trans honly.frame
  have harea := data_area hdata
  rw [← hzero.fatBlocks, ← hzero.bs] at harea
  rw [Driver.resized, if_neg hlt.ne', stored_data (hframe.geometry hg) (hframe.takes (Live.takes hw hk hr)) _ hp,
    honly.data harea]

theorem resized_data (hw : WellFormed s) (hk : s.image.Live k) (hr : k ≠ s.image.rootSlot) {size : ℕ}
    (hdata : s.image.IsData (p / s.bs)) (hp : ¬ (320 * k ≤ p ∧ p < 320 * k + 320)) :
    (s.resized (s.entry k) (320 * k) size).data p = if s.Clears k size p then 0 else s.data p := by
  have hg := hw.geometry
  have hread : s.image.Readable (s.entry k) := hw.image.readable hk
  rcases Nat.lt_or_ge size (s.entry k).len with hlt | hge
  · rw [cut_data hw hk hr hlt hdata hp, Driver.zeroTail]
    by_cases hmod : size % s.bs = 0
    · rw [if_pos hmod, if_neg fun h => h.2.1 hmod]
    have hwrites := zeroTail_writes hg hread hlt
    have hoffset := hg.offset
    rw [if_neg hmod, pokes_data _ _ fun q hq => by have := (hwrites q hq).2; omega, zeroWrites,
      patches_zeroRun _ _ _ _ (Nat.lt_succ_self _)]
    change patch s.data (s.place k size) (List.replicate _ 0) p = _
    split_ifs with hclears
    · obtain ⟨i, rfl⟩ := Nat.exists_eq_add_of_le hclears.2.2.1
      have hend := hclears.2.2.2
      have hi : i < (List.replicate ((s.entry k).len - size) (0 : UInt8)).length := by
        rw [List.length_replicate]
        omega
      rw [patch_inside _ _ _ i hi, List.getElem_replicate]
    · have hno : ¬ (s.place k size ≤ p ∧ p < s.place k size + ((s.entry k).len - size)) := fun h =>
        hclears ⟨hlt, hmod, h.1, h.2⟩
      exact patch_outside _ _ _ _ (by rw [List.length_replicate]; omega)
  · rw [if_neg fun h => absurd h.1 (not_lt.mpr hge), Driver.resized]
    split_ifs with hsame
    · rfl
    · have honly := reblocked_grown hg hread (lt_of_le_of_ne hge hsame)
      rw [stored_data (honly.frame.geometry hg) (honly.frame.takes (Live.takes hw hk hr)) _ hp,
        honly.data (data_area hdata)]

/-- The blocks of the resized file are as many as its size asks for, if none are added, or behind a single one. -/
theorem newChain_count {e : DirEntry} {size : ℕ} (hroom : ¬ s.TooLarge e size) (hright : s.blocksFor size ≤
    (s.image.chainOf e).length ∨ (s.image.chainOf e).length = 1) : (s.newChain e size).length = s.blocksFor size := by
  by_cases hle : s.blocksFor size ≤ (s.image.chainOf e).length
  · rw [newChain_kept hle, List.length_take_of_le hle]
  · have hone := hright.resolve_left hle
    have hmax : s.blocksFor size = updiv size s.bs := by
      unfold Driver.blocksFor at hle ⊢
      omega
    have hroom' : s.HasRoom size := by
      by_contra hno
      exact hroom ⟨by omega, hno⟩
    have := hroom'.2
    rw [newChain_added (Nat.lt_of_not_le hle), List.length_append, List.length_take]
    omega

theorem newChain_fresh {e : DirEntry} {size b : ℕ} (hb : b ∈ s.newChain e size) :
    b ∈ s.image.chainOf e ∨ s.fat b = 0 := by
  by_cases hle : s.blocksFor size ≤ (s.image.chainOf e).length
  · rw [newChain_kept hle] at hb
    exact .inl (List.mem_of_mem_take hb)
  · rw [newChain_added (Nat.lt_of_not_le hle), List.mem_append] at hb
    exact hb.imp_right fun hb => (mem_freeList.mp (List.mem_of_mem_take hb)).2

theorem newChain_getElem {e : DirEntry} {size q : ℕ} (hq : q < (s.newChain e size).length)
    (hq' : q < (s.image.chainOf e).length) : (s.newChain e size)[q] = (s.image.chainOf e)[q] := by
  by_cases hle : s.blocksFor size ≤ (s.image.chainOf e).length
  · simp only [newChain_kept hle, List.getElem_take]
  · simp only [newChain_added (Nat.lt_of_not_le hle), List.getElem_append_left hq']

end Bytes

end Thorn.FatDriver

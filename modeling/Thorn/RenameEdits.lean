import Thorn.RootCopies
import Thorn.TreeMoves

set_option autoImplicit false

namespace Thorn.FatDriver
open ByteStore Paths FatTypes FatOperations FatImage LinkedChain

def zeroEntry : DirEntry := .decode (List.replicate sizeofDirEntry 0)

theorem zeroEntry_start : zeroEntry.start = 0 := by decide

section Shape
variable {s t : Fs}

theorem SameFrame.shape (h : SameFrame s t) : s.image.SameShape t.image := ⟨h.epb, h.blockCount, h.fatBlocks⟩

theorem free_of_start {s : Fs} {e : DirEntry} (h : e.start = 0) : s.image.free e := by
  rw [Image.free, h]
  rfl

theorem tidy_stays (ht : s.image.Tidy) {q : ℕ} (hq : s.image.Live q) (hd : (s.entry q).isDirectory) {k : ℕ}
    (hk : k ∈ (s.image.slots q).drop (s.image.copies q)) (hfree : s.image.free (s.entry k))
    (he : t.entry k = s.entry k) : t.image.free (t.entry k) := by
  rw [he]
  exact free_of_start (ht q hq hd k hk hfree)

end Shape

theorem rootSlot_isSlot {s : Fs} (hw : WellFormed s) : s.IsSlot s.image.rootSlot := hw.image.live_data .root

section Fades
variable {s t u : Fs}

theorem leBytes_field (m : Store) (o n : ℕ) {k w : ℕ} (h : k + w ≤ n) :
    leBytes w (field (slice m o n) k w) = slice m (o + k) w := by
  have hback := leBytes_leNat (slice m (o + k) w)
  rw [slice_length] at hback
  rw [field, slice_drop_take m o n k w h]
  exact hback

theorem field_lt (m : Store) (o n : ℕ) {k w : ℕ} (h : k + w ≤ n) : field (slice m o n) k w < 256 ^ w := by
  have hlt := leNat_lt (slice m (o + k) w)
  rw [slice_length] at hlt
  rw [field, slice_drop_take m o n k w h]
  exact hlt

/-- An entry stored again with another start block: the other bytes are as they were, the padding zero. -/
theorem encode_setStart (m : Store) (o : ℕ) (b : ℤ) : ((DirEntry.decode (slice m o 320)).setStart b).encode =
    slice m o 288 ++ (leBytes 4 (BitVec.ofInt 32 b).toNat ++ (slice m (o + 292) 8 ++ List.replicate 20 0)) := by
  have hname : (Filename.ofBytes ((slice m o 320).take 256)).str = slice m o 256 := by
    have htake := slice_take m o 320 256 (by omega)
    rw [htake]
    exact List.take_left' (slice_length m o 256)
  have height : ∀ k, k + 8 ≤ 320 →
      leBytes 8 (BitVec.ofNat 64 (field (slice m o 320) k 8)).toNat = slice m (o + k) 8 := by
    intro k hk
    have hlt := field_lt m o 320 hk
    rw [BitVec.toNat_ofNat, Nat.mod_eq_of_lt (by omega), leBytes_field m o 320 hk]
  have hfour : ∀ k, k + 4 ≤ 320 →
      leBytes 4 (BitVec.ofNat 32 (field (slice m o 320) k 4)).toNat = slice m (o + k) 4 := by
    intro k hk
    have hlt := field_lt m o 320 hk
    rw [BitVec.toNat_ofNat, Nat.mod_eq_of_lt (by omega), leBytes_field m o 320 hk]
  simp only [DirEntry.encode, DirEntry.setStart, DirEntry.decode]
  rw [hname, height 256 (by omega), height 264 (by omega), height 272 (by omega), height 280 (by omega),
    hfour 292 (by omega), hfour 296 (by omega), slice_add m o 256 32, slice_add m (o + 256) 8 24,
    slice_add m (o + 256 + 8) 8 16, slice_add m (o + 256 + 8 + 8) 8 8, slice_add m (o + 292) 4 4]
  simp only [List.append_assoc]

/-- Nothing but zeros is written where there was a zero. -/
structure Fades (s t : Fs) : Prop where
  frame : SameFrame s t
  zero : ∀ p, s.partition.parent.bytes p = 0 → t.partition.parent.bytes p = 0

namespace Fades

theorem refl (s : Fs) : Fades s s := ⟨.refl s, fun _ h => h⟩

theorem trans (h : Fades s t) (h' : Fades t u) :
    Fades s u := ⟨h.frame.trans h'.frame, fun p hp => h'.zero p (h.zero p hp)⟩

theorem addFree (s : Fs) (n : ℤ) : Fades s (s.addFree n) := ⟨.addFree s n, fun _ h => h⟩

theorem refresh (s : Fs) (e : DirEntry) : Fades s (s.refresh e) := by
  refine ⟨.refresh s e, fun p hp => ?_⟩
  rw [refresh_partition]
  exact hp

theorem poke {p : ℕ} {l : List UInt8} (h : ∀ i (hi : i < l.length),
    s.partition.parent.bytes ((s.partition.offset + p) % 2 ^ 64 + i) = 0 → l[i] = 0) : Fades s (s.poke p l) := by
  refine ⟨.poke s p l, fun q hq => ?_⟩
  change patch s.partition.parent.bytes ((s.partition.offset + p) % 2 ^ 64) l q = 0
  by_cases hin : (s.partition.offset + p) % 2 ^ 64 ≤ q ∧ q < (s.partition.offset + p) % 2 ^ 64 + l.length
  · obtain ⟨i, rfl⟩ := Nat.exists_eq_add_of_le hin.1
    have hi : i < l.length := by omega
    rw [patch_inside _ _ _ i hi]
    exact h i hi hq
  · rw [patch_outside _ _ _ _ (by omega)]
    exact hq

theorem tableRule : TableRule Fades (fun _ => True) fun _ _ v => v = 0 where
  refl := refl
  trans := trans
  keeps _ _ := trivial
  cell _ h := h
  addFree := addFree
  putFAT _ hv := by
    subst hv
    apply poke
    intro i hi _
    have hbytes : blockBytes 0 = List.replicate 4 0 := by decide
    simp only [hbytes, List.getElem_replicate]

theorem clearCells (s : Fs) (l : List ℕ) : Fades s (s.clearCells l) := tableRule.clearCells trivial fun _ _ => rfl

theorem fat (h : Fades s t) {b : ℤ} (hb : s.fat b = 0) : t.fat b = 0 := by
  have hoff : fatOffset t.superblock b = fatOffset s.superblock b := by rw [h.frame.superblock]
  rw [Driver.fat, cellAt] at hb ⊢
  rw [hoff, h.frame.offset]
  generalize (s.partition.offset + fatOffset s.superblock b) % 2 ^ 64 = o at hb ⊢
  have hnat : leNat (slice s.partition.parent.bytes o 4) = 0 := by
    have hlt := leNat_lt (slice s.partition.parent.bytes o 4)
    rw [slice_length] at hlt
    rw [blockOfBytes, toInt32] at hb
    split_ifs at hb <;> omega
  have hslice : slice s.partition.parent.bytes o 4 = List.replicate 4 0 := leNat_inj _ _ (by simp) hnat
  have hbytes : slice t.partition.parent.bytes o 4 = List.replicate 4 0 := by
    apply List.ext_getElem (by simp)
    intro i hi _
    have hz : (slice s.partition.parent.bytes o 4)[i]? = some 0 := by
      rw [hslice, List.getElem?_replicate, if_pos (by simpa using hi)]
    rw [slice_getElem? _ _ _ _ (by simpa using hi), Option.some.injEq] at hz
    have hget := h.zero _ hz
    simp only [slice, List.getElem_map, List.getElem_range, List.getElem_replicate]
    exact hget
  rw [hbytes]
  decide

theorem storeEntry (hg : Geometry s) {d : ℕ} (hd : s.IsSlot d) (hr : d ≠ s.image.rootSlot) :
    Fades s (s.storeEntry ((s.entry d).setStart 0) (320 * d)) := by
  have hslot := slot_bound hg hd
  have hnot : 320 * d ≠ mul32 s.superblock.startBlock s.bs := by
    rw [root_offset hg]
    omega
  rw [Driver.storeEntry, if_neg hnot]
  refine trans (poke fun i hi hz => ?_) (refresh _ _)
  rw [Nat.mod_eq_of_lt (hg.no_wrap (by omega)), Nat.add_assoc] at hz
  have hlen : i < 320 := by simpa using hi
  have hencode := encode_setStart s.data (320 * d) 0
  rw [← entry_eq] at hencode
  have hget : ((s.entry d).setStart 0).encode[i] =
      (slice s.data (320 * d) 288 ++ (leBytes 4 (BitVec.ofInt 32 0).toNat ++ (slice s.data (320 * d + 292) 8 ++
        List.replicate 20 0))).getD i 0 := by
    rw [← hencode, List.getD_eq_getElem _ _ hi]
  have hzero : leBytes 4 (BitVec.ofInt 32 0).toNat = List.replicate 4 0 := by decide
  rw [hget, hzero, List.getD_eq_getElem?_getD]
  by_cases h₁ : i < 288
  · rw [List.getElem?_append_left (by simpa using h₁), slice_getElem? _ _ _ _ h₁]
    exact hz
  · rw [List.getElem?_append_right (by simpa using h₁), slice_length]
    by_cases h₂ : i < 292
    · rw [List.getElem?_append_left (by simp; omega), List.getElem?_replicate, if_pos (by omega)]
      rfl
    · rw [List.getElem?_append_right (by simp; omega), List.length_replicate]
      by_cases h₃ : i < 300
      · rw [List.getElem?_append_left (by simp; omega), slice_getElem? _ _ _ _ (by omega),
          show 320 * d + 292 + (i - 288 - 4) = 320 * d + i by omega]
        exact hz
      · rw [List.getElem?_append_right (by simp; omega), List.getElem?_replicate]
        split_ifs <;> rfl

end Fades

end Fades

section Removed
variable {s : Fs} {d : ℕ}

theorem removed_frame (s : Fs) (d : ℕ) : SameFrame s (s.removed d) :=
  ((SameFrame.clearCells s _).trans (.addFree _ _)).trans (.storeEntry _ _ _)

theorem chain_lt (hw : WellFormed s) (hd : s.image.Live d) : ∀ b ∈ s.image.chain d, b < s.blockCount :=
  fun b hb => ((hw.image.owns d hd).data b hb).2

theorem cleared_only (hw : WellFormed s) (hd : s.image.Live d) :
    OnlyTable s ((s.clearCells (s.image.chain d)).addFree (s.image.chain d).length) :=
  (OnlyTable.clearCells hw.geometry (chain_lt hw hd)).trans (.addFree _ _)

theorem removed_fat (hw : WellFormed s) (hd : s.image.Live d) {b : ℕ} (hb : b < s.blockCount) :
    (s.removed d).fat b = if b ∈ s.image.chain d then 0 else s.fat b := by
  have honly := cleared_only hw hd
  have hstore :=
    storeEntry_fat (honly.frame.geometry hw.geometry) (honly.frame.isSlot.mpr (hw.image.live_data hd))
    ((s.entry d).setStart 0) (honly.frame.blockCount ▸ hb)
  rw [Driver.removed, hstore]
  exact clearCells_fat hw.geometry (chain_lt hw hd) hb

theorem removed_entry (hw : WellFormed s) (hd : s.image.Live d) (hr : d ≠ s.image.rootSlot) {k : ℕ}
    (hk : s.IsSlot k) : (s.removed d).entry k = if k = d then (s.entry d).setStart 0 else s.entry k := by
  have honly := cleared_only hw hd
  have hroot : ((s.clearCells (s.image.chain d)).addFree (s.image.chain d).length).image.rootSlot =
      s.image.rootSlot :=
    honly.frame.rootSlot
  have hnot : ¬ (d = s.image.rootSlot ∧ k = d + 1) := fun h => hr h.1
  rw [Driver.removed, storeEntry_entry (honly.frame.geometry hw.geometry)
    (honly.frame.isSlot.mpr (hw.image.live_data hd)), hroot, if_neg hnot, honly.entry hw.geometry hk]

theorem removed_root (hw : WellFormed s) (hd : s.image.Live d) : (s.removed d).root = s.root := by
  have honly := cleared_only hw hd
  rw [Driver.removed, storeEntry_root (honly.frame.geometry hw.geometry), if_neg]
  · exact honly.root
  · rw [honly.frame.superblock, hw.geometry.startBlock, DirEntry.setStart_start]
    simp only [toInt32]
    norm_num
    omega

theorem removed_fades (hw : WellFormed s) (hd : s.image.Live d) (hr : d ≠ s.image.rootSlot) :
    Fades s (s.removed d) := by
  have honly := cleared_only hw hd
  have hg := honly.frame.geometry hw.geometry
  have hslot := hw.image.live_data hd
  have hstore := Fades.storeEntry hg (honly.frame.isSlot.mpr hslot) (honly.frame.rootSlot ▸ hr)
  rw [honly.entry hw.geometry hslot] at hstore
  exact ((Fades.clearCells s _).trans (.addFree _ _)).trans hstore

theorem removed_freed (hw : WellFormed s) (hd : s.image.Live d) (hr : d ≠ s.image.rootSlot) :
    s.image.Freed (s.removed d).image d where
  shape := (removed_frame s d).shape
  fat b hb := removed_fat hw hd hb
  entry k hk hkd := by
    change (s.removed d).entry k = s.entry k
    rw [removed_entry hw hd hr hk, if_neg hkd]
  gone := by
    change ((s.removed d).entry d).start = 0
    rw [removed_entry hw hd hr (hw.image.live_data hd), if_pos rfl, DirEntry.setStart_start]
    rfl
  free p hp hdir k hk hkd hfree := by
    have hk' : s.IsSlot k := hw.image.slot_data hp (List.mem_of_mem_drop hk)
    change (s.removed d).image.free ((s.removed d).entry k)
    rw [removed_entry hw hd hr hk', if_neg hkd]
    rcases (Bool.or_eq_true _ _).mp hfree with h0 | h0
    · exact free_of_start (of_decide_eq_true h0)
    · have hstill : (s.removed d).fat (s.entry k).start = 0 :=
        (removed_fades hw hd hr).fat (of_decide_eq_true h0)
      rw [Image.free, image_fat, hstill]
      simp

theorem removed_wellFormed (hw : WellFormed s) (hroot : s.root = s.entry s.image.rootSlot)
    (hd : s.image.Live d) (hfile : (s.entry d).isDirectory = false) (hr : d ≠ s.image.rootSlot) :
    WellFormed (s.removed d) ∧ (s.removed d).root = (s.removed d).entry (s.removed d).image.rootSlot := by
  have hframe := removed_frame s d
  have hleaf := Image.leaf_of_file (I := s.image) hfile
  have hsync : (s.removed d).root = (s.removed d).entry (s.removed d).image.rootSlot := by
    rw [removed_root hw hd, hframe.rootSlot, removed_entry hw hd hr (rootSlot_isSlot hw), if_neg hr.symm, hroot]
  exact ⟨⟨hframe.geometry hw.geometry,
    ((removed_freed hw hd hr).rearranged hw.image hd hr hleaf).wellFormed hw.image, fun _ => hsync⟩, hsync⟩

end Removed

section Placed
variable {s : Fs} {p j : ℕ} {newfile : DirEntry}

theorem zero_start (hg : Geometry s) (hn : newfile.start = 0) : newfile.start ≠ s.superblock.startBlock := by
  rw [hn, hg.startBlock]
  omega

theorem stored_entry (hg : Geometry s) (hj : s.Takes j) (k : ℕ) :
    (s.storeEntry newfile (320 * j)).entry k = if k = j then newfile else s.entry k := by
  have hbehind := hj.behind
  have hnot : ¬ (j = s.image.rootSlot ∧ k = j + 1) := fun h => by omega
  rw [storeEntry_entry hg hj.slot, if_neg hnot]

theorem stored_root (hg : Geometry s) (hn : newfile.start ≠ s.superblock.startBlock) :
    (s.storeEntry newfile (320 * j)).root = s.root := by
  rw [storeEntry_root hg, if_neg hn]

theorem grownEntry_len (hw : WellFormed s) {p : ℕ} (hp : s.image.Live p) :
    (grownEntry (s.entry p) true).len = (s.entry p).len + sizeofDirEntry := by
  have hsmall : (s.entry p).len < 2 ^ 32 := hw.image.len_small hp
  have hsize : sizeofDirEntry = 320 := rfl
  change ((s.entry p).setLength _).len = _
  rw [DirEntry.setLength_len, Nat.mod_eq_of_lt (by omega)]

/-- A full directory that grows is longer than its chain. -/
theorem grown_overfull (hw : WellFormed s) {p : ℕ} (hp : s.image.Live p) (hd : (s.entry p).isDirectory)
    (hfull : s.FullDir p) : (s.image.chain p).length * s.bs < (grownEntry (s.entry p) true).len := by
  have hchain := (listed_of_live hw hp hd).chain_eq hw.geometry
  have hsize : sizeofDirEntry = 320 := rfl
  have hlen := grownEntry_len hw hp
  obtain ⟨c, hc⟩ := hfull
  have hup : updiv (s.entry p).len s.bs = c := by
    rw [hc, updiv, Nat.mul_mod_right, Nat.mul_div_cancel_left _ hw.geometry.bs_pos]
    simp
  rw [hlen, hchain, hup, hc, Nat.mul_comm]
  omega

theorem entered_grown (s : Fs) (p j : ℕ) (newfile : DirEntry) : s.entered p j newfile true true =
    (s.storeEntry newfile (320 * j)).storeEntry (grownEntry (s.entry p) true) (320 * p) := rfl

theorem grown_entry (hg : Geometry s) (hp : s.IsSlot p) (hj : s.Takes j) (k : ℕ) :
    (s.entered p j newfile true true).entry k = if k = p then grownEntry (s.entry p) true
      else if p = s.image.rootSlot ∧ k = p + 1 then (grownEntry (s.entry p) true).setName dotDotName
      else if k = j then newfile else s.entry k := by
  have hframe := SameFrame.storeEntry s newfile (320 * j)
  rw [entered_grown, storeEntry_entry (hframe.geometry hg) (hframe.isSlot.mpr hp), hframe.rootSlot,
    stored_entry hg hj]

theorem grown_root (hg : Geometry s) (hroot : s.root = s.entry s.image.rootSlot)
    (hstart : (s.entry s.image.rootSlot).start = s.superblock.startBlock) (hp : s.IsSlot p)
    (hp' : p = s.image.rootSlot ∨ (s.entry p).start ≠ s.superblock.startBlock) (hj : s.Takes j)
    (hn : newfile.start ≠ s.superblock.startBlock) :
    (s.entered p j newfile true true).root =
      (s.entered p j newfile true true).entry (s.entered p j newfile true true).image.rootSlot := by
  have hframe := SameFrame.storeEntry s newfile (320 * j)
  have hframe' : SameFrame s (s.entered p j newfile true true) := .entered s p j newfile true true
  have hbehind := hj.behind
  rw [hframe'.rootSlot, grown_entry hg hp hj, entered_grown, storeEntry_root (hframe.geometry hg),
    grownEntry_start, hframe.superblock, stored_root hg hn]
  by_cases hpr : p = s.image.rootSlot
  · rw [if_pos (by rw [hpr]; exact hstart), if_pos hpr.symm, hroot, hpr]
    rfl
  · rw [if_neg (hp'.resolve_left hpr), if_neg (Ne.symm hpr), if_neg (fun h => hpr h.1), if_neg (by omega),
      hroot]

theorem grown_fat (hg : Geometry s) (hp : s.IsSlot p) (hj : s.Takes j) {b : ℕ} (hb : b < s.blockCount) :
    (s.entered p j newfile true true).fat b = s.fat b := by
  have hframe := SameFrame.storeEntry s newfile (320 * j)
  rw [entered_grown, storeEntry_fat (hframe.geometry hg) (hframe.isSlot.mpr hp) _ (hframe.blockCount ▸ hb),
    storeEntry_fat hg hj.slot _ hb]

theorem endSlot_ne (hw : WellFormed s) (hp : s.image.Live p) (hd : (s.entry p).isDirectory) (hroom : ¬ s.FullDir p) :
    s.endSlot p ≠ p := by
  intro he
  obtain ⟨q, hq, -, hs⟩ := hw.image.live_mem hp
  rw [← he] at hs
  exact hw.image.end_not_mem hp hd (by rw [hw.geometry.image_bs]; exact hroom) hq hs

theorem entered_edit (hw : WellFormed s) (ht : s.image.Tidy) (hp : s.image.Live p)
    (hd : (s.entry p).isDirectory) (hroom : ¬ s.FullDir p) (hn : newfile.start = 0) :
    s.image.Grown (s.entered p (s.endSlot p) newfile true true).image p (s.endSlot p) where
  shape := (SameFrame.entered s p _ newfile true true).shape
  fat b hb := grown_fat hw.geometry (hw.image.live_data hp) (endSlot_takes hw hp hd hroom) hb
  entry k _ hkp hkj hkr := by
    change (s.entered p (s.endSlot p) newfile true true).entry k = s.entry k
    rw [grown_entry hw.geometry (hw.image.live_data hp) (endSlot_takes hw hp hd hroom), if_neg hkp, if_neg,
      if_neg hkj]
    rintro ⟨rfl, hk⟩
    exact hkr rfl hk
  parent := by
    change (s.entered p (s.endSlot p) newfile true true).entry p = _
    rw [grown_entry hw.geometry (hw.image.live_data hp) (endSlot_takes hw hp hd hroom), if_pos rfl]
    rfl
  dotdot hpr := by
    change ((s.entered p (s.endSlot p) newfile true true).entry (s.image.rootSlot + 1)).name.toStr = dotDotName
    rw [grown_entry hw.geometry (hw.image.live_data hp) (endSlot_takes hw hp hd hroom), if_neg (by omega),
      if_pos ⟨hpr, by rw [hpr]⟩]
    exact Filename.ofBytes_toStr dotDotName (by decide) (by decide)
  slot := rfl
  room := by
    rw [hw.geometry.image_bs]
    exact hroom
  empty := by
    have htakes := endSlot_takes hw hp hd hroom
    have hne := endSlot_ne hw hp hd hroom
    have hbehind := htakes.behind
    change ((s.entered p (s.endSlot p) newfile true true).entry (s.endSlot p)).start = 0
    rw [grown_entry hw.geometry (hw.image.live_data hp) htakes, if_neg hne, if_neg (by omega), if_pos rfl, hn]
  free q hq hdir k hk hfree := by
    have hlive : ¬ s.image.Live k := fun hl => by
      rw [(hw.image.owns k hl).not_free] at hfree
      cases hfree
    have hne : k ≠ s.endSlot p := by
      rintro rfl
      exact hw.image.end_not_mem hp hd (by rw [hw.geometry.image_bs]; exact hroom) hq (List.mem_of_mem_drop hk)
    have hsucc := hw.image.root_succ_not_child hq hk
    apply tidy_stays ht hq hdir hk hfree
    have hkp : k ≠ p := fun he => hlive (he ▸ hp)
    have hnot : ¬ (p = s.image.rootSlot ∧ k = p + 1) := fun h => hsucc (by rw [h.2, h.1])
    rw [grown_entry hw.geometry (hw.image.live_data hp) (endSlot_takes hw hp hd hroom), if_neg hkp, if_neg hnot,
      if_neg hne]

theorem entered_root (hw : WellFormed s) (hroot : s.root = s.entry s.image.rootSlot) (hp : s.image.Live p)
    (hd : (s.entry p).isDirectory) (hroom : ¬ s.FullDir p) (hn : newfile.start = 0) :
    (s.entered p (s.endSlot p) newfile true true).root = (s.entered p (s.endSlot p) newfile true true).entry
      (s.entered p (s.endSlot p) newfile true true).image.rootSlot :=
  grown_root hw.geometry hroot (entry_start_root hw) (hw.image.live_data hp)
    (Decidable.or_iff_not_imp_left.mpr fun hpr => live_start hw hp hpr) (endSlot_takes hw hp hd hroom)
    (zero_start hw.geometry hn)

theorem entered_wellFormed (hw : WellFormed s) (ht : s.image.Tidy) (hroot : s.root = s.entry s.image.rootSlot)
    (hp : s.image.Live p) (hd : (s.entry p).isDirectory) (hroom : ¬ s.FullDir p) (hn : newfile.start = 0) :
    WellFormed (s.entered p (s.endSlot p) newfile true true) where
  geometry := (SameFrame.entered s p _ newfile true true).geometry hw.geometry
  image := ((entered_edit hw ht hp hd hroom hn).rearranged hw.image hp hd).wellFormed hw.image
  root _ := entered_root hw hroot hp hd hroom hn

end Placed

section Moved
variable {s : Fs} {p j k : ℕ} {e : DirEntry}

theorem moved_frame (s : Fs) (e : DirEntry) (o k : ℕ) :
    SameFrame s (s.moved e o k) := (SameFrame.poke s _ _).trans (.poke _ _ _)

theorem moved_root (s : Fs) (e : DirEntry) (o k : ℕ) : (s.moved e o k).root = s.root := rfl

theorem zero_bytes_length : (List.replicate sizeofDirEntry (0 : UInt8)).length = 320 := List.length_replicate

theorem moved_fat (hg : Geometry s) (hj : s.IsSlot j) (hk : s.IsSlot k) {b : ℕ} (hb : b < s.blockCount) :
    (s.moved e (320 * j) k).fat b = s.fat b := by
  have hframe := SameFrame.putEntry s j e
  have hbk := slot_bound hg hk
  have hzero := poke_fat (hframe.geometry hg) (l := List.replicate sizeofDirEntry 0)
    (show ((s.putEntry j e).fatBlocks + 1) * (s.putEntry j e).bs ≤ 320 * k
      by rw [hframe.fatBlocks, hframe.bs]; exact hbk.1)
    (by rw [hframe.length]; omega) (hframe.blockCount ▸ hb)
  exact hzero.trans (putEntry_fat hg hj e hb)

theorem moved_entry (hg : Geometry s) (hj : s.IsSlot j) (hk : s.IsSlot k) (i : ℕ) :
    (s.moved e (320 * j) k).entry i = if i = k then zeroEntry else if i = j then e else s.entry i := by
  have hframe := SameFrame.putEntry s j e
  have hg' := hframe.geometry hg
  have hbk := slot_bound hg hk
  have hle : 320 * k ≤ (s.putEntry j e).partition.length := by
    rw [hframe.length]
    omega
  change ((s.putEntry j e).poke (320 * k) (List.replicate sizeofDirEntry 0)).entry i = _
  by_cases hik : i = k
  · subst hik
    have hself := slice_patch_self (s.putEntry j e).data (320 * i) (List.replicate sizeofDirEntry 0)
    rw [zero_bytes_length] at hself
    rw [if_pos rfl, entry_eq, poke_data _ _ _ (hg'.no_wrap hle)]
    exact congrArg DirEntry.decode hself
  · rw [if_neg hik, poke_entry hg' hle (by rw [zero_bytes_length]; omega), putEntry_entry hg hj]

theorem moved_block (hg : Geometry s) (hj : s.IsSlot j) (hk : s.IsSlot k) {b : ℕ} (hbj : j / s.image.epb ≠ b)
    (hbk : k / s.image.epb ≠ b) : (s.moved e (320 * j) k).block b = s.block b := by
  have hframe := SameFrame.putEntry s j e
  have hg' := hframe.geometry hg
  have hb := slot_bound hg hk
  have hr := slot_range hg k
  have hapart := block_apart (w := s.bs) hbk
  change ((s.putEntry j e).poke (320 * k) (List.replicate sizeofDirEntry 0)).block b = _
  rw [poke_block hg' (by rw [hframe.length]; omega) (by rw [zero_bytes_length, hframe.bs]; omega),
    putEntry_block hg hj e hbj]

structure OnlySlot (s t : Fs) (j : ℕ) : Prop where
  frame : SameFrame s t
  root : t.root = s.root
  fat : ∀ b < s.blockCount, t.fat b = s.fat b
  entry : ∀ i, i ≠ j → t.entry i = s.entry i
  block : ∀ b, j / s.image.epb ≠ b → t.block b = s.block b

theorem OnlySlot.refl (s : Fs) (j : ℕ) :
    OnlySlot s s j := ⟨.refl s, rfl, fun _ _ => rfl, fun _ _ => rfl, fun _ _ => rfl⟩

theorem stored_only (hw : WellFormed s) (hj : s.Takes j) {newfile : DirEntry} (hn : newfile.start = 0) :
    OnlySlot s (s.entered p j newfile false true) j where
  frame := .storeEntry s newfile (320 * j)
  root := stored_root hw.geometry (zero_start hw.geometry hn)
  fat _ hb := storeEntry_fat hw.geometry hj.slot newfile hb
  entry i hi := (stored_entry hw.geometry hj i).trans (if_neg hi)
  block _ hb := storeEntry_block hw.geometry hj.slot newfile hb

theorem moved_edit {v : Fs} (hw : WellFormed s) (ht : s.image.Tidy) (hp : s.image.Live p)
    (hj : j ∈ (s.image.slots p).drop (s.image.copies p)) (hvacant : s.image.free (s.entry j))
    (hv : OnlySlot s v j)
    (hk : s.image.Live k) (hstart : e.start = (s.entry k).start) (hlen : e.len = (s.entry k).len)
    (hdir : e.isDirectory = (s.entry k).isDirectory) : s.image.Moved (v.moved e (320 * j) k).image p j k := by
  have hg := hv.frame.geometry hw.geometry
  have hjs : v.IsSlot j := hv.frame.isSlot.mpr (hw.image.slot_data hp (List.mem_of_mem_drop hj))
  have hks : v.IsSlot k := hv.frame.isSlot.mpr (hw.image.live_data hk)
  have hjk : j ≠ k := by
    rintro rfl
    have hno : s.image.free (s.entry j) = false := (hw.image.owns j hk).not_free
    rw [hno] at hvacant
    cases hvacant
  have hent : ∀ i, (v.moved e (320 * j) k).entry i = if i = k then zeroEntry
      else if i = j then e else s.entry i := by
    intro i
    rw [moved_entry hg hjs hks]
    split_ifs with h₁ h₂
    · rfl
    · rfl
    · exact hv.entry i h₂
  have hself : (v.moved e (320 * j) k).entry j = e := by rw [hent, if_neg hjk, if_pos rfl]
  exact {
    shape := (hv.frame.trans (moved_frame v e _ k)).shape
    fat := fun b hb => (moved_fat hg hjs hks (hv.frame.blockCount ▸ hb)).trans (hv.fat b hb)
    entry := fun i _ hij hik => by
      change (v.moved e (320 * j) k).entry i = s.entry i
      rw [hent, if_neg hik, if_neg hij]
    start := (congrArg DirEntry.start hself).trans hstart
    len := (congrArg DirEntry.len hself).trans hlen
    directory := (congrArg DirEntry.isDirectory hself).trans hdir
    cleared := by
      change ((v.moved e (320 * j) k).entry k).start = 0
      rw [hent, if_pos rfl]
      exact zeroEntry_start
    slot := hj
    vacant := hvacant
    free := fun q hq hd i hi hij hik hfree => by
      apply tidy_stays ht hq hd hi hfree
      rw [hent, if_neg hik, if_neg hij] }

end Moved

end Thorn.FatDriver

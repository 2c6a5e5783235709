import Thorn.FatResize

set_option autoImplicit false

namespace Thorn.FatDriver
open ByteStore Paths FatTypes FatOperations FatImage LinkedChain

section Write
variable {s : Fs}

theorem run_writeSkipLoop (hg : Geometry s) {b : ℕ} {l : List ℕ}
    (hc : Chain s.image.next s.image.Final b l) (offset fuel : ℕ) (hfuel : offset < fuel)
    (hoff : offset / s.bs < l.length) :
    writeSkipLoop s.bs fuel offset b s = some (((l[offset / s.bs] : ℤ), ((offset % s.bs : ℕ) : ℤ)), s) := by
  have hbs := hg.bs_pos
  induction hc generalizing offset fuel with
  | @last b hf =>
    obtain ⟨fuel, rfl⟩ : ∃ m, fuel = m + 1 := ⟨fuel - 1, by omega⟩
    have hlt : offset < s.bs := by
      simpa [Nat.div_eq_zero_iff, hbs.ne'] using hoff
    rw [writeSkipLoop, run_ite, if_neg (by omega), run_pure]
    simp only [Nat.div_eq_of_lt hlt, Nat.mod_eq_of_lt hlt, List.getElem_cons_zero]
  | @link b c l hn t ih =>
    obtain ⟨fuel, rfl⟩ : ∃ m, fuel = m + 1 := ⟨fuel - 1, by omega⟩
    by_cases hlt : offset < s.bs
    · rw [writeSkipLoop, run_ite, if_neg (by omega), run_pure]
      simp only [Nat.div_eq_of_lt hlt, Nat.mod_eq_of_lt hlt, List.getElem_cons_zero]
    · have hq := div_bs_succ hbs (Nat.le_of_not_lt hlt)
      have hm : offset % s.bs = (offset - s.bs) % s.bs := Nat.mod_eq_sub_mod (Nat.le_of_not_lt hlt)
      have hfat := fat_of_next hn
      have hrest := ih (offset - s.bs) fuel (by omega)
        (by simp only [List.length_cons] at hoff; omega)
      rw [writeSkipLoop, run_ite, if_pos (by omega), run_bind, run_readFAT, Option.bind_some, hfat]
      rw [← Nat.cast_sub (Nat.le_of_not_lt hlt), hrest]
      simp only [hq, hm, List.getElem_cons_succ]

theorem run_writeBlock_done (t : Fs) (bs : ℕ) (buffer : List UInt8) (fuel written position : ℕ) (block : ℤ) :
    writeBlockLoop bs buffer (fuel + 1) 0 written position block t = some ((0, written), t) := by
  rw [writeBlockLoop, run_ite, if_pos rfl, run_pure]

theorem run_writeBlock_step (t : Fs) (bs : ℕ) (buffer : List UInt8) (fuel size_left written position : ℕ)
    (block : ℤ) (h0 : size_left ≠ 0) :
    writeBlockLoop bs buffer (fuel + 1) size_left written position block t =
      (let to_write := if bs < size_left then bs else size_left
       let u := t.poke position ((buffer.drop written).take to_write)
       if u.fat block = FINAL ∧ size_left - to_write ≠ 0 then some ((0, written + to_write), u)
       else if u.fat block ≠ FINAL then
         (checkBlock (u.fat block) u).bind fun p => writeBlockLoop bs buffer fuel (size_left - to_write)
           (written + to_write) (toSize (u.fat block * bs)) (u.fat block) p.2
       else writeBlockLoop bs buffer fuel (size_left - to_write) (written + to_write)
         ((position + to_write) % 2 ^ 64) (u.fat block) u) := by
  rw [writeBlockLoop, run_ite, if_neg h0]
  simp only [run_bind, run_partitionWrite, Option.bind_some, run_ite, lt_self_iff_false, ite_false, run_readFAT,
    run_pure]

/-- The loop lays what is left of the buffer over the blocks of the chain; its
writes lie behind the table, so the links ahead are still there. -/
theorem run_writeBlockLoop (hg : Geometry s) {b : ℕ} {l : List ℕ}
    (hc : Chain s.image.next s.image.Final b l) (hd : ∀ x ∈ l, s.image.IsData x) (buffer : List UInt8)
    (t : Fs) (ht : SameFrame s t) (hfat : ∀ c < s.blockCount, t.fat c = s.fat c)
    (size_left written position fuel : ℕ) (hsize : written + size_left = buffer.length)
    (hfuel : size_left < fuel) (hlen : size_left ≤ l.length * s.bs)
    (hp : size_left ≠ 0 → position = b * s.bs) :
    writeBlockLoop s.bs buffer fuel size_left written position b t =
      some ((0, buffer.length), t.pokes (pieces s.bs l (buffer.drop written))) := by
  have hbs := hg.bs_pos
  induction hc generalizing t size_left written position fuel with
  | @last b hf =>
    obtain ⟨fuel, rfl⟩ : ∃ m, fuel = m + 1 := ⟨fuel - 1, by omega⟩
    have hnil : size_left = 0 → buffer.drop written = [] := fun h => List.drop_eq_nil_iff.mpr (by omega)
    by_cases h0 : size_left = 0
    · subst h0
      rw [run_writeBlock_done, pieces, if_pos (hnil rfl)]
      simp only [Nat.add_zero] at hsize
      rw [hsize]
      rfl
    · obtain ⟨fuel, rfl⟩ : ∃ m, fuel = m + 1 := ⟨fuel - 1, by omega⟩
      have hle : size_left ≤ s.bs := by simpa using hlen
      have hb := hd b (by simp)
      have hrange := data_range hg hb
      have hne : buffer.drop written ≠ [] := by
        rw [ne_eq, List.drop_eq_nil_iff]
        omega
      have hl : (buffer.drop written).length = size_left := by
        rw [List.length_drop]
        omega
      have hposition := hp h0
      subst hposition
      have hkeep : (t.poke (b * s.bs) ((buffer.drop written).take size_left)).fat b = FINAL := by
        rw [poke_fat (ht.geometry hg) (by rw [ht.fatBlocks, ht.bs]; exact hrange.1)
          (by rw [ht.length]; omega) (by rw [ht.blockCount]; exact hb.2), hfat b hb.2]
        exact hf
      have htake : (buffer.drop written).take s.bs = (buffer.drop written).take size_left := by
        rw [List.take_of_length_le (by omega), List.take_of_length_le (by omega)]
      rw [run_writeBlock_step _ _ _ _ _ _ _ _ h0]
      simp only [if_neg (Nat.not_lt.mpr hle), hkeep, Nat.sub_self, ne_eq, not_true_eq_false, and_false,
        ite_false, run_writeBlock_done, hsize]
      rw [pieces, if_neg hne, htake]
      rfl
  | @link b c l hn tl ih =>
    obtain ⟨fuel, rfl⟩ : ∃ m, fuel = m + 1 := ⟨fuel - 1, by omega⟩
    by_cases h0 : size_left = 0
    · subst h0
      rw [run_writeBlock_done, pieces, if_pos (List.drop_eq_nil_iff.mpr (by omega))]
      simp only [Nat.add_zero] at hsize
      rw [hsize]
      rfl
    · have hb := hd b (by simp)
      have hcd := hd c (by simp [tl.head_mem])
      have hrange := data_range hg hb
      have hne : buffer.drop written ≠ [] := by
        rw [ne_eq, List.drop_eq_nil_iff]
        omega
      have hl : (buffer.drop written).length = size_left := by
        rw [List.length_drop]
        omega
      have hposition := hp h0
      subst hposition
      have hpokefat : ∀ n, ∀ x < s.blockCount,
          (t.poke (b * s.bs) ((buffer.drop written).take n)).fat x = s.fat x := fun n x hx => by
        rw [poke_fat (ht.geometry hg) (by rw [ht.fatBlocks, ht.bs]; exact hrange.1)
          (by rw [ht.length]; omega) (by rw [ht.blockCount]; exact hx), hfat x hx]
      have hnf : (c : ℤ) ≠ FINAL := by
        simp only [FINAL, ne_eq]
        omega
      have hcheck : (1 : ℤ) ≤ c := by
        have := hcd.1
        omega
      have hsz : toSize ((c : ℤ) * s.bs) = c * s.bs := by
        have := hg.block_small hcd.2
        exact_mod_cast toSize_natCast (c * s.bs) (by omega)
      have hlink := fat_of_next hn
      have htake : (buffer.drop written).take (if s.bs < size_left then s.bs else size_left) =
          (buffer.drop written).take s.bs := by
        split_ifs
        · rfl
        · rw [List.take_of_length_le (by omega), List.take_of_length_le (by omega)]
      have hdrop : buffer.drop (written + if s.bs < size_left then s.bs else size_left) =
          (buffer.drop written).drop s.bs := by
        rw [List.drop_drop]
        split_ifs
        · rfl
        · rw [List.drop_eq_nil_iff.mpr (by omega), List.drop_eq_nil_iff.mpr (by omega)]
      have hframe := ht.trans (SameFrame.poke t (b * s.bs) ((buffer.drop written).take s.bs))
      have hrest := ih (fun x hx => hd x (by simp [hx])) (t.poke (b * s.bs) ((buffer.drop written).take s.bs))
        hframe (hpokefat s.bs) (size_left - if s.bs < size_left then s.bs else size_left)
        (written + if s.bs < size_left then s.bs else size_left) (c * s.bs) fuel
        (by split_ifs <;> omega) (by split_ifs <;> omega)
        (by
          simp only [List.length_cons, Nat.add_mul, Nat.one_mul] at hlen
          split_ifs <;> omega)
        fun _ => rfl
      rw [run_writeBlock_step _ _ _ _ _ _ _ _ h0]
      simp only [htake, hpokefat s.bs b hb.2, hlink, hnf, false_and, ite_false, ne_eq, not_false_eq_true,
        ite_true, run_checkBlock _ hcheck, Option.bind_some, hsz, hrest, hdrop]
      rw [pieces, if_neg hne]
      rfl

theorem run_writeData (hg : Geometry s) {e : DirEntry} {l : List ℕ} (h : s.image.Owns e l)
    (buffer : List UInt8) (offset : ℕ) (hj : offset / s.bs < l.length)
    (hfit : offset + buffer.length ≤ l.length * s.bs) :
    writeData s.bs buffer (l[offset / s.bs] : ℕ) (offset % s.bs : ℕ) s =
      some ((0, buffer.length), s.pokes (spans s.bs (l.drop (offset / s.bs)) (offset % s.bs) buffer)) := by
  have hbs := hg.bs_pos
  have hr := Nat.mod_lt offset hbs
  have hdm := Nat.div_add_mod' offset s.bs
  have hb := h.data _ (List.getElem_mem hj)
  have hend := hg.block_end hb.2
  have hsmall := hg.block_small hb.2
  have htable := data_range hg hb
  have htotal : l.length * s.bs < 2 ^ 32 :=
    (Nat.mul_le_mul_right _ h.length_le).trans_lt hg.small
  obtain ⟨b₀, -, hc⟩ := h.start
  have hcd := hc.drop _ hj
  have hmem : ∀ x ∈ l.drop (offset / s.bs), s.image.IsData x := fun x hx => h.data x (List.mem_of_mem_drop hx)
  have hlend : (l.drop (offset / s.bs)).length * s.bs = l.length * s.bs - offset / s.bs * s.bs := by
    rw [List.length_drop, Nat.sub_mul]
  have hdrop : l.drop (offset / s.bs) = l[offset / s.bs] :: l.drop (offset / s.bs + 1) :=
    List.drop_eq_getElem_cons hj
  have hlink := h.fat_link (offset / s.bs)
  have hdrop1 : ∀ hj' : offset / s.bs + 1 < l.length, Chain s.image.next s.image.Final l[offset / s.bs + 1]
      (l.drop (offset / s.bs + 1)) := fun hj' => hc.drop _ hj'
  have hdata1 : ∀ hj' : offset / s.bs + 1 < l.length, s.image.IsData l[offset / s.bs + 1] := fun hj' =>
    h.data _ (List.getElem_mem hj')
  have hlen1 : (offset / s.bs + 1) * s.bs = offset / s.bs * s.bs + s.bs := by
    rw [Nat.add_mul, Nat.one_mul]
  generalize hq : offset / s.bs = j at *
  generalize hr' : offset % s.bs = r at *
  have hpos : toSize ((l[j] : ℕ) * (s.bs : ℤ) + (r : ℕ)) = l[j] * s.bs + r := by
    exact_mod_cast toSize_natCast (l[j] * s.bs + r) (by omega)
  have hsum : toSize (((r : ℕ) : ℤ) + (buffer.length : ℕ)) = r + buffer.length := by
    exact_mod_cast toSize_natCast (r + buffer.length) (by omega)
  have hhead : (l.drop j).headD 0 = l[j] := by rw [hdrop, List.headD_cons]
  have htail : (l.drop j).tail = l.drop (j + 1) := by rw [hdrop, List.tail_cons]
  have hfuel := walkFuel_pos s.superblock
  simp only [writeData, run_get, hpos, hsum, run_ite, run_bind, run_partitionWrite, Option.bind_some, run_pure,
    lt_self_iff_false, ite_false, spans, hhead, htail]
  by_cases h₁ : r + buffer.length ≤ s.bs
  · rw [if_pos h₁, if_pos h₁]
    rfl
  rw [if_neg h₁, if_neg h₁]
  by_cases h₂ : 0 < r
  · rw [if_pos (by omega), if_pos h₂]
    have hto : ((s.bs : ℤ) - (r : ℕ)).toNat = s.bs - r := by omega
    have hj' : j + 1 < l.length := by
      by_contra hge
      have : l.length * s.bs ≤ (j + 1) * s.bs := Nat.mul_le_mul_right _ (by omega)
      omega
    have hnext := hdata1 hj'
    have hkeep : ∀ x < s.blockCount, (s.poke (l[j] * s.bs + r) (buffer.take (s.bs - r))).fat x = s.fat x :=
      fun x hx => poke_fat hg (by omega) (by omega) hx
    have hfat : s.fat (l[j] : ℕ) = (l[j + 1] : ℕ) := hlink hj'
    have hpos1 : (1 : ℤ) ≤ (l[j + 1] : ℕ) := by
      have := hnext.1
      omega
    have hsz : toSize (((l[j + 1] : ℕ) : ℤ) * s.bs) = l[j + 1] * s.bs := by
      have := hg.block_small hnext.2
      exact_mod_cast toSize_natCast (l[j + 1] * s.bs) (by omega)
    have hloop := run_writeBlockLoop hg (hdrop1 hj')
      (fun x hx => h.data x (List.mem_of_mem_drop hx)) buffer
      (s.poke (l[j] * s.bs + r) (buffer.take (s.bs - r))) (.poke s _ _) hkeep (buffer.length - (s.bs - r))
      (s.bs - r) (l[j + 1] * s.bs) (buffer.length + walkFuel s.superblock) (by omega) (by omega)
      (by rw [List.length_drop, Nat.sub_mul]; omega) fun _ => rfl
    simp only [hto, ne_eq, not_true_eq_false, ite_false, run_readFAT, Option.bind_some,
      hkeep _ hb.2, hfat, run_checkBlock _ hpos1, hsz, hloop]
    rfl
  · have hz : r = 0 := by omega
    have hloop := run_writeBlockLoop hg hcd hmem buffer s (.refl s) (fun _ _ => rfl) buffer.length 0
      (l[j] * s.bs) (buffer.length + walkFuel s.superblock) (by omega) (by omega) (by omega) fun _ => rfl
    rw [if_neg (by omega), if_neg h₂, hz, Nat.add_zero, hloop, List.drop_zero]

end Write

end Thorn.FatDriver

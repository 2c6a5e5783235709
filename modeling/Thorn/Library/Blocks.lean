import Thorn.Library.Bytes

set_option autoImplicit false

/-!
# Byte strings scattered over blocks

A store cut into blocks of equal width: `gather` concatenates the blocks of a
list, `spans` cuts a byte string into the writes that lay it over such a list.
-/
namespace ByteStore

def blockAt (m : Store) (w b : ℕ) : List UInt8 := slice m (b * w) w

def gather (m : Store) (w : ℕ) (l : List ℕ) : List UInt8 := l.flatMap (blockAt m w)

@[simp] theorem blockAt_length (m : Store) (w b : ℕ) : (blockAt m w b).length = w := slice_length _ _ _

@[simp] theorem gather_nil (m : Store) (w : ℕ) : gather m w [] = [] := rfl

theorem gather_cons (m : Store) (w b : ℕ) (l : List ℕ) : gather m w (b :: l) = blockAt m w b ++ gather m w l :=
  List.flatMap_cons

theorem gather_append (m : Store) (w : ℕ) (l₁ l₂ : List ℕ) :
    gather m w (l₁ ++ l₂) = gather m w l₁ ++ gather m w l₂ := List.flatMap_append

@[simp] theorem gather_length (m : Store) (w : ℕ) (l : List ℕ) : (gather m w l).length = l.length * w := by
  induction l with
  | nil => simp
  | cons b l ih =>
    rw [gather_cons, List.length_append, ih, blockAt_length, List.length_cons]
    ring

theorem gather_congr (m m' : Store) (w : ℕ) (l : List ℕ) (h : ∀ b ∈ l, blockAt m' w b = blockAt m w b) :
    gather m' w l = gather m w l := List.flatMap_congr h

theorem gather_drop (m : Store) (w : ℕ) (l : List ℕ) (j : ℕ) :
    (gather m w l).drop (j * w) = gather m w (l.drop j) := by
  induction l generalizing j with
  | nil => simp
  | cons b l ih =>
    cases j with
    | zero => simp
    | succ j =>
      have he : (j + 1) * w = (blockAt m w b).length + j * w := by
        rw [blockAt_length]
        ring
      rw [gather_cons, he, ← List.drop_drop, List.drop_left, ih, List.drop_succ_cons]

theorem gather_take (m : Store) (w : ℕ) (l : List ℕ) (j : ℕ) :
    (gather m w l).take (j * w) = gather m w (l.take j) := by
  induction l generalizing j with
  | nil => simp
  | cons b l ih =>
    cases j with
    | zero => simp
    | succ j =>
      have he : (j + 1) * w = (blockAt m w b).length + j * w := by
        rw [blockAt_length]
        ring
      rw [gather_cons, he, List.take_length_add_append, ih, List.take_succ_cons, gather_cons]

theorem gather_from (m : Store) (w : ℕ) (l : List ℕ) (offset : ℕ) (hw : 0 < w) (hj : offset / w < l.length) :
    (gather m w l).drop offset =
      slice m (l[offset / w] * w + offset % w) (w - offset % w) ++ gather m w (l.drop (offset / w + 1)) := by
  have hd := Nat.div_add_mod' offset w
  have hr := Nat.mod_lt offset hw
  have hblock : (blockAt m w l[offset / w]).drop (offset % w) =
      slice m (l[offset / w] * w + offset % w) (w - offset % w) := by
    have h := slice_drop_take m (l[offset / w] * w) w (offset % w) (w - offset % w) (by omega)
    rwa [List.take_of_length_le (by rw [List.length_drop, slice_length])] at h
  conv_lhs => rw [← hd, ← List.drop_drop, gather_drop, List.drop_eq_getElem_cons hj, gather_cons]
  rw [List.drop_append_of_le_length (by rw [blockAt_length]; omega), hblock]

theorem flatMap_slice {α : Type*} {f : α → List UInt8} {w : ℕ} (hf : ∀ x, (f x).length = w) (l : List α)
    (i r n : ℕ) (hi : i < l.length) (hr : r + n ≤ w) :
    ((l.flatMap f).drop (i * w + r)).take n = ((f l[i]).drop r).take n := by
  induction l generalizing i with
  | nil => exact absurd hi (Nat.not_lt_zero i)
  | cons x l ih =>
    cases i with
    | zero =>
      rw [Nat.zero_mul, Nat.zero_add, List.flatMap_cons, List.drop_append_of_le_length (by rw [hf]; omega),
        List.take_append_of_le_length (by rw [List.length_drop, hf]; omega), List.getElem_cons_zero]
    | succ i =>
      have he : (i + 1) * w + r = (f x).length + (i * w + r) := by
        rw [hf]
        ring
      rw [List.flatMap_cons, he, ← List.drop_drop, List.drop_left, ih i (Nat.lt_of_succ_lt_succ hi),
        List.getElem_cons_succ]

theorem gather_slice (m : Store) (w : ℕ) (l : List ℕ) (i r n : ℕ) (hi : i < l.length) (hr : r + n ≤ w) :
    ((gather m w l).drop (i * w + r)).take n = slice m (l[i] * w + r) n :=
  (flatMap_slice (blockAt_length m w) l i r n hi hr).trans (slice_drop_take m (l[i] * w) w r n hr)

theorem gather_getElem? (m : Store) (w : ℕ) (l : List ℕ) {i : ℕ} (hw : 0 < w) (hi : i < l.length * w) :
    (gather m w l)[i]? = some (m (l.getD (i / w) 0 * w + i % w)) := by
  have hq : i / w < l.length := (Nat.div_lt_iff_lt_mul hw).mpr hi
  have hone := gather_slice m w l (i / w) (i % w) 1 hq (Nat.mod_lt i hw)
  rw [Nat.div_add_mod'] at hone
  have hhead := congrArg (·[0]?) hone
  simp only [List.getElem?_take, List.getElem?_drop, Nat.add_zero, Nat.zero_lt_one, ite_true] at hhead
  rw [hhead, slice_getElem? _ _ _ _ Nat.zero_lt_one, List.getD_eq_getElem _ _ hq, Nat.add_zero]

theorem gather_take_eq_iff (m m' : Store) (w : ℕ) (l : List ℕ) {n : ℕ} (hw : 0 < w) (hn : n ≤ l.length * w) :
    (gather m' w l).take n = (gather m w l).take n ↔
      ∀ i < n, m' (l.getD (i / w) 0 * w + i % w) = m (l.getD (i / w) 0 * w + i % w) := by
  constructor
  · intro h i hi
    have hbyte := congrArg (·[i]?) h
    simp only [List.getElem?_take, if_pos hi] at hbyte
    rw [gather_getElem? m' w l hw (hi.trans_le hn), gather_getElem? m w l hw (hi.trans_le hn)] at hbyte
    exact Option.some.inj hbyte
  · intro h
    apply List.ext_getElem?
    intro i
    simp only [List.getElem?_take]
    split_ifs with hi
    · rw [gather_getElem? m' w l hw (hi.trans_le hn), gather_getElem? m w l hw (hi.trans_le hn), h i hi]
    · rfl

theorem block_apart {b c w : ℕ} (h : b ≠ c) : b * w + w ≤ c * w ∨ c * w + w ≤ b * w := by
  rcases Nat.lt_or_gt_of_ne h with h | h
  · left
    simpa [Nat.succ_mul] using Nat.mul_le_mul_right w h
  · right
    simpa [Nat.succ_mul] using Nat.mul_le_mul_right w h

def patches (m : Store) (ps : List (ℕ × List UInt8)) : Store := ps.foldl (fun m p => patch m p.1 p.2) m

@[simp] theorem patches_nil (m : Store) : patches m [] = m := rfl

@[simp] theorem patches_cons (m : Store) (o : ℕ) (bytes : List UInt8) (ps : List (ℕ × List UInt8)) :
    patches m ((o, bytes) :: ps) = patches (patch m o bytes) ps := rfl

theorem patches_outside (m : Store) (ps : List (ℕ × List UInt8)) (i : ℕ)
    (h : ∀ p ∈ ps, i < p.1 ∨ p.1 + p.2.length ≤ i) : patches m ps i = m i := by
  induction ps generalizing m with
  | nil => rfl
  | cons p ps ih =>
    rw [patches_cons, ih _ fun q hq => h q (by simp [hq]), patch_outside _ _ _ _ (h p (by simp))]

theorem slice_patches (m : Store) (ps : List (ℕ × List UInt8)) (o n : ℕ)
    (h : ∀ p ∈ ps, o + n ≤ p.1 ∨ p.1 + p.2.length ≤ o) : slice (patches m ps) o n = slice m o n := by
  refine slice_congr _ _ _ _ fun i h₁ h₂ => patches_outside m ps i fun p hp => ?_
  have := h p hp
  omega

def pieces (w : ℕ) : List ℕ → List UInt8 → List (ℕ × List UInt8)
  | [], _ => []
  | b :: l, bytes => if bytes = [] then [] else (b * w, bytes.take w) :: pieces w l (bytes.drop w)

/-- Bytes laid over blocks, from place `r` of the first block on. -/
def spans (w : ℕ) (l : List ℕ) (r : ℕ) (bytes : List UInt8) : List (ℕ × List UInt8) :=
  if r + bytes.length ≤ w then [(l.headD 0 * w + r, bytes)]
  else if 0 < r then (l.headD 0 * w + r, bytes.take (w - r)) :: pieces w l.tail (bytes.drop (w - r))
  else pieces w l bytes

theorem pieces_within (w : ℕ) (l : List ℕ) (bytes : List UInt8) :
    ∀ p ∈ pieces w l bytes, ∃ b ∈ l, b * w ≤ p.1 ∧ p.1 + p.2.length ≤ b * w + w := by
  induction l generalizing bytes with
  | nil => simp [pieces]
  | cons b l ih =>
    intro p hp
    rw [pieces] at hp
    split_ifs at hp with h0
    · simp at hp
    · rcases List.mem_cons.mp hp with rfl | hp
      · exact ⟨b, by simp, le_rfl, by simp⟩
      · obtain ⟨c, hc, h⟩ := ih _ p hp
        exact ⟨c, by simp [hc], h⟩

theorem spans_within (w : ℕ) (l : List ℕ) (r : ℕ) (bytes : List UInt8) (hl : l ≠ []) (hr : r ≤ w) :
    ∀ p ∈ spans w l r bytes, ∃ b ∈ l, b * w ≤ p.1 ∧ p.1 + p.2.length ≤ b * w + w := by
  obtain ⟨b, l, rfl⟩ := List.exists_cons_of_ne_nil hl
  intro p hp
  unfold spans at hp
  simp only [List.headD_cons, List.tail_cons] at hp
  split_ifs at hp with h₁ h₂
  · obtain rfl := List.mem_singleton.mp hp
    exact ⟨b, by simp, by simp, by simp only; omega⟩
  · rcases List.mem_cons.mp hp with rfl | hp
    · refine ⟨b, by simp, by simp, ?_⟩
      simp only [List.length_take]
      omega
    · obtain ⟨c, hc, h⟩ := pieces_within w l _ p hp
      exact ⟨c, by simp [hc], h⟩
  · exact pieces_within w (b :: l) bytes p hp

theorem blockAt_patches (m : Store) (w : ℕ) (ps : List (ℕ × List UInt8)) (l : List ℕ) (c : ℕ) (hc : c ∉ l)
    (h : ∀ p ∈ ps, ∃ b ∈ l, b * w ≤ p.1 ∧ p.1 + p.2.length ≤ b * w + w) :
    blockAt (patches m ps) w c = blockAt m w c := by
  refine slice_patches m ps _ _ fun p hp => ?_
  obtain ⟨b, hb, h₁, h₂⟩ := h p hp
  have hne : b ≠ c := fun he => hc (he ▸ hb)
  have := block_apart (w := w) hne
  omega

theorem blockAt_patch_self (m : Store) (w b r : ℕ) (bytes : List UInt8) (h : r + bytes.length ≤ w) :
    blockAt (patch m (b * w + r) bytes) w b =
      (blockAt m w b).take r ++ bytes ++ (blockAt m w b).drop (r + bytes.length) := by
  obtain ⟨n, rfl⟩ : ∃ n, w = r + bytes.length + n := ⟨w - (r + bytes.length), by omega⟩
  have hd := slice_drop_take m (b * (r + bytes.length + n)) (r + bytes.length + n) (r + bytes.length) n le_rfl
  rw [List.take_of_length_le (by simp)] at hd
  rw [blockAt, blockAt, slice_patch_within, slice_take _ _ _ _ (by omega), hd]
  simp only [Nat.add_assoc]

theorem gather_pieces (m : Store) (w : ℕ) (l : List ℕ) (hl : l.Nodup) (bytes : List UInt8)
    (h : bytes.length ≤ l.length * w) :
    gather (patches m (pieces w l bytes)) w l = bytes ++ (gather m w l).drop bytes.length := by
  induction l generalizing m bytes with
  | nil =>
    have hnil : bytes = [] := by simpa using h
    simp [hnil]
  | cons b l ih =>
    by_cases h0 : bytes = []
    · simp [pieces, h0]
    · obtain ⟨hb, hl⟩ := List.nodup_cons.mp hl
      have hrest : gather (patch m (b * w) (bytes.take w)) w l = gather m w l := by
        refine gather_congr _ _ _ _ fun c hc => ?_
        exact blockAt_patches m w [(b * w, bytes.take w)] [b] c (by rintro hm; simp at hm; exact hb (hm ▸ hc))
          (by simp)
      have hfirst : blockAt (patch m (b * w) (bytes.take w)) w b =
          bytes.take w ++ (blockAt m w b).drop bytes.length := by
        have hs := blockAt_patch_self m w b 0 (bytes.take w) (by simp)
        rw [Nat.add_zero, List.take_zero, List.nil_append, Nat.zero_add] at hs
        rw [hs, List.length_take]
        congr 1
        rcases Nat.le_total w bytes.length with hle | hle
        · rw [Nat.min_eq_left hle, List.drop_of_length_le (by simp),
            List.drop_of_length_le (by simpa using hle)]
        · rw [Nat.min_eq_right hle]
      have hkeep : blockAt (patches (patch m (b * w) (bytes.take w)) (pieces w l (bytes.drop w))) w b =
          blockAt (patch m (b * w) (bytes.take w)) w b :=
        blockAt_patches _ w _ l b hb (pieces_within w l _)
      simp only [List.length_cons, Nat.add_mul, Nat.one_mul] at h
      rw [pieces, if_neg h0, patches_cons, gather_cons, gather_cons, hkeep, hfirst,
        ih _ hl (bytes.drop w) (by rw [List.length_drop]; omega), hrest, List.length_drop,
        List.drop_append, blockAt_length]
      rcases Nat.le_total w bytes.length with hle | hle
      · rw [List.drop_of_length_le (i := bytes.length) (by simpa using hle)]
        simp [← List.append_assoc]
      · rw [List.take_of_length_le hle, List.drop_of_length_le hle]
        simp

/-- Laying bytes over blocks from place `r` on replaces that part of the concatenation. -/
theorem gather_spans (m : Store) (w : ℕ) (l : List ℕ) (hl : l.Nodup) (r : ℕ) (hr : r < w)
    (bytes : List UInt8) (hne : l ≠ []) (h : r + bytes.length ≤ l.length * w) :
    gather (patches m (spans w l r bytes)) w l =
      (gather m w l).take r ++ bytes ++ (gather m w l).drop (r + bytes.length) := by
  obtain ⟨b, l, rfl⟩ := List.exists_cons_of_ne_nil hne
  obtain ⟨hb, hl⟩ := List.nodup_cons.mp hl
  have hblock := blockAt_length m w b
  have hrest : ∀ r' bs, r' + bs.length ≤ w → gather (patch m (b * w + r') bs) w l = gather m w l :=
    fun r' bs hle => gather_congr _ _ _ _ fun c hc =>
      blockAt_patches m w [(b * w + r', bs)] [b] c (by rintro hm; simp at hm; exact hb (hm ▸ hc))
        (by simp; omega)
  unfold spans
  simp only [List.headD_cons, List.tail_cons]
  simp only [List.length_cons, Nat.add_mul, Nat.one_mul] at h
  split_ifs with h₁ h₂
  · rw [patches_cons, patches_nil, gather_cons, gather_cons, hrest r bytes h₁,
      blockAt_patch_self m w b r bytes h₁, List.take_append_of_le_length (by omega),
      List.drop_append_of_le_length (by omega)]
    simp only [List.append_assoc]
  · have hcut : (bytes.take (w - r)).length = w - r := by
      rw [List.length_take]
      omega
    have hfirst := blockAt_patch_self m w b r (bytes.take (w - r)) (by omega)
    rw [hcut, Nat.add_sub_cancel' hr.le, List.drop_of_length_le (i := w) (by omega), List.append_nil] at hfirst
    have hkeep : blockAt (patches (patch m (b * w + r) (bytes.take (w - r)))
        (pieces w l (bytes.drop (w - r)))) w b = blockAt (patch m (b * w + r) (bytes.take (w - r))) w b :=
      blockAt_patches _ w _ l b hb (pieces_within w l _)
    have htail : (blockAt m w b ++ gather m w l).drop (r + bytes.length) =
        (gather m w l).drop (bytes.length - (w - r)) := by
      rw [List.drop_append, List.drop_of_length_le (by omega), List.nil_append, hblock]
      congr 1
      omega
    rw [patches_cons, gather_cons, gather_cons, hkeep, hfirst,
      gather_pieces _ w l hl _ (by rw [List.length_drop]; omega), hrest r _ (by omega), List.length_drop,
      List.take_append_of_le_length (by omega), htail]
    simp only [List.append_assoc]
    rw [← List.append_assoc (bytes.take (w - r)), List.take_append_drop]
  · have h0 : r = 0 := by omega
    have hp := gather_pieces m w (b :: l) (List.nodup_cons.mpr ⟨hb, hl⟩) bytes
      (by simp only [List.length_cons, Nat.add_mul, Nat.one_mul]; omega)
    rw [hp, h0, List.take_zero, List.nil_append, Nat.zero_add]

theorem gather_write (m : Store) (w : ℕ) (hw : 0 < w) (l : List ℕ) (hl : l.Nodup) (offset : ℕ)
    (bytes : List UInt8) (hj : offset / w < l.length) (h : offset + bytes.length ≤ l.length * w) :
    gather (patches m (spans w (l.drop (offset / w)) (offset % w) bytes)) w l =
      (gather m w l).take offset ++ bytes ++ (gather m w l).drop (offset + bytes.length) := by
  have hd := Nat.div_add_mod' offset w
  have hr := Nat.mod_lt offset hw
  have hne : l.drop (offset / w) ≠ [] := by
    rw [ne_eq, List.drop_eq_nil_iff]
    omega
  have hspan := gather_spans m w (l.drop (offset / w)) (hl.sublist (List.drop_sublist _ _)) (offset % w) hr
    bytes hne (by rw [List.length_drop, Nat.sub_mul]; omega)
  have hhead : gather (patches m (spans w (l.drop (offset / w)) (offset % w) bytes)) w (l.take (offset / w)) =
      gather m w (l.take (offset / w)) := by
    refine gather_congr _ _ _ _ fun c hc => blockAt_patches _ _ _ (l.drop (offset / w)) _ (fun hm => ?_)
      (spans_within w _ _ bytes hne hr.le)
    exact (List.disjoint_take_drop hl le_rfl) hc hm
  conv_lhs => rw [← List.take_append_drop (offset / w) l, gather_append, List.take_append_drop]
  have htake : (gather m w l).take (offset / w * w) ++
      ((gather m w l).drop (offset / w * w)).take (offset % w) = (gather m w l).take offset := by
    rw [← List.take_add, hd]
  rw [hhead, hspan, ← gather_take, ← gather_drop, List.drop_drop, ← Nat.add_assoc, hd, ← htake]
  simp only [List.append_assoc]

theorem patches_spans_at (m : Store) (w : ℕ) (hw : 0 < w) (l : List ℕ) (hl : l.Nodup) (offset : ℕ)
    (bytes : List UInt8)
    (hj : offset / w < l.length) (h : offset + bytes.length ≤ l.length * w) {i : ℕ} (hi : i < l.length * w) :
    patches m (spans w (l.drop (offset / w)) (offset % w) bytes) (l.getD (i / w) 0 * w + i % w) =
      if offset ≤ i ∧ i < offset + bytes.length then bytes.getD (i - offset) 0
      else m (l.getD (i / w) 0 * w + i % w) := by
  have hbyte := congrArg (·[i]?) (gather_write m w hw l hl offset bytes hj h)
  have hold := gather_getElem? m w l hw hi
  have hlen := gather_length m w l
  rw [gather_getElem? _ w l hw hi] at hbyte
  split_ifs with hin
  · have hlt : i - offset < bytes.length := by omega
    rw [List.getElem?_append_left (by simp only [List.length_append, List.length_take, hlen]; omega),
      List.getElem?_append_right (by simp only [List.length_take, hlen]; omega), List.length_take, hlen,
      Nat.min_eq_left (by omega), List.getElem?_eq_getElem hlt] at hbyte
    rw [List.getD_eq_getElem _ _ hlt]
    exact Option.some.inj hbyte
  · rcases Nat.lt_or_ge i offset with hlt | hge
    · rw [List.append_assoc, List.getElem?_append_left (by simp only [List.length_take, hlen]; omega),
        List.getElem?_take_of_lt hlt, hold] at hbyte
      exact Option.some.inj hbyte
    · rw [List.getElem?_append_right (by simp only [List.length_append, List.length_take, hlen]; omega),
        List.length_append,
        List.length_take, hlen, Nat.min_eq_left (by omega), List.getElem?_drop,
          Nat.add_sub_cancel' (by omega), hold] at hbyte
      exact Option.some.inj hbyte

theorem patches_spans_off (m : Store) (w : ℕ) (hw : 0 < w) (l : List ℕ) (offset : ℕ) (bytes : List UInt8)
    (hj : offset / w < l.length) {p : ℕ} (hp : p / w ∉ l) :
    patches m (spans w (l.drop (offset / w)) (offset % w) bytes) p = m p := by
  have hne : l.drop (offset / w) ≠ [] := by
    rw [ne_eq, List.drop_eq_nil_iff]
    omega
  have hmod := Nat.mod_lt p hw
  have hsplit := Nat.div_add_mod' p w
  apply patches_outside
  intro q hq
  obtain ⟨b, hb, h₁, h₂⟩ := spans_within w _ _ bytes hne (Nat.mod_lt offset hw).le q hq
  have hbp : b ≠ p / w := by
    rintro rfl
    exact hp (List.mem_of_mem_drop hb)
  have := block_apart (w := w) hbp
  omega

end ByteStore

import Thorn.HeapBlocks

set_option autoImplicit false

namespace Thorn.Heap
open ByteStore Runs Memory

structure Header (ram : Store) (a size next : ℕ) (free : Bool) : Prop where
  size_eq : blockSize ram a = size
  next_eq : blockNext ram a = next
  free_eq : blockFree ram a = free

def SameBut (ram ram' : Store) (a : ℕ) : Prop := ∀ i, i < a ∨ a + sizeofBlockMeta ≤ i → ram' i = ram i

theorem read_written (ram : Store) (a : ℕ) {v : ℕ} (hv : v < 2 ^ 64) :
    leNat (slice (patch ram a (leBytes 8 v)) a 8) = v := by
  have hs := slice_patch_self ram a (leBytes 8 v)
  rw [leBytes_length] at hs
  rw [hs, leNat_leBytes]
  exact Nat.mod_eq_of_lt hv

section Header
variable {ram ram' : Store} {a size next v : ℕ} {free f : Bool}

theorem Header.setSize (h : Header ram a size next free) (hv : v < 2 ^ 64) :
    Header (setSize ram a v) a v next free where
  size_eq := read_written ram a hv
  next_eq := by
    rw [← h.next_eq]
    unfold blockNext Memory.setSize
    rw [slice_patch_disjoint _ _ _ _ _ (.inr (by simp))]
  free_eq := by
    rw [← h.free_eq]
    unfold blockFree Memory.setSize
    rw [patch_outside _ _ _ _ (.inr (by simp))]

theorem Header.setNext (h : Header ram a size next free) (hv : v < 2 ^ 64) :
    Header (setNext ram a v) a size v free where
  size_eq := by
    rw [← h.size_eq]
    unfold blockSize Memory.setNext
    rw [slice_patch_disjoint _ _ _ _ _ (.inl (Nat.le_refl _))]
  next_eq := read_written ram (a + 8) hv
  free_eq := by
    rw [← h.free_eq]
    unfold blockFree Memory.setNext
    rw [patch_outside _ _ _ _ (.inr (by simp))]

theorem Header.setFree (h : Header ram a size next free) : Header (setFree ram a f) a size next f where
  size_eq := by
    rw [← h.size_eq]
    unfold blockSize Memory.setFree
    rw [slice_patch_disjoint _ _ _ _ _ (.inl (by omega))]
  next_eq := by
    rw [← h.next_eq]
    unfold blockNext Memory.setFree
    rw [slice_patch_disjoint _ _ _ _ _ (.inl (by omega))]
  free_eq := by
    have hi := patch_inside ram (a + 16) [if f then 1 else 0] 0 (by simp)
    unfold blockFree Memory.setFree
    rw [Nat.add_zero] at hi
    rw [hi]
    cases f <;> rfl

theorem header_self : Header ram a (blockSize ram a) (blockNext ram a) (blockFree ram a) := ⟨rfl, rfl, rfl⟩

theorem sameBut_refl : SameBut ram ram a := fun _ _ => rfl

theorem SameBut.setSize (h : SameBut ram ram' a) : SameBut ram (setSize ram' a v) a := by
  intro i hi
  unfold sizeofBlockMeta at hi
  unfold Memory.setSize
  rw [patch_outside _ _ _ _ (by rw [leBytes_length]; omega), h i hi]

theorem SameBut.setNext (h : SameBut ram ram' a) : SameBut ram (setNext ram' a v) a := by
  intro i hi
  unfold sizeofBlockMeta at hi
  unfold Memory.setNext
  rw [patch_outside _ _ _ _ (by rw [leBytes_length]; omega), h i hi]

theorem SameBut.setFree (h : SameBut ram ram' a) : SameBut ram (setFree ram' a f) a := by
  intro i hi
  unfold sizeofBlockMeta at hi
  unfold Memory.setFree
  rw [patch_outside _ _ _ _ (by simp only [List.length_singleton]; omega), h i hi]

theorem Header.congr (h : Header ram a size next free)
    (hs : ∀ i, a ≤ i → i < a + sizeofBlockMeta → ram' i = ram i) : Header ram' a size next free where
  size_eq := by
    rw [← h.size_eq]
    unfold blockSize
    rw [slice_congr ram ram' a 8 fun i h₁ h₂ => hs i h₁ (by unfold sizeofBlockMeta; omega)]
  next_eq := by
    rw [← h.next_eq]
    unfold blockNext
    rw [slice_congr ram ram' (a + 8) 8 fun i h₁ h₂ => hs i (by omega) (by unfold sizeofBlockMeta; omega)]
  free_eq := by
    rw [← h.free_eq]
    unfold blockFree
    rw [hs (a + 16) (by omega) (by unfold sizeofBlockMeta; omega)]

end Header

/-- Following the links from `p` visits the blocks of `l` and comes to `q`. -/
def Segment (ram : Store) : ℕ → List Block → ℕ → Prop
  | p, [], q => p = q
  | p, b :: l, q => p = b.addr ∧ p ≠ 0 ∧ ∃ r, Header ram p b.size r b.free ∧ Segment ram r l q

def Listed (ram : Store) (p : ℕ) (l : List Block) : Prop := Segment ram p l 0

section Segment
variable {ram ram' : Store} {p q lo hi : ℕ} {b : Block} {l l₁ l₂ : List Block}

theorem segment_append : Segment ram p (l₁ ++ l₂) q ↔ ∃ r, Segment ram p l₁ r ∧ Segment ram r l₂ q := by
  induction l₁ generalizing p with
  | nil =>
    constructor
    · exact fun h => ⟨p, rfl, h⟩
    · rintro ⟨r, rfl, h⟩
      exact h
  | cons b l₁ ih =>
    simp only [List.cons_append, Segment, ih]
    constructor
    · rintro ⟨ha, h0, s, hh, r, h₁, h₂⟩
      exact ⟨r, ⟨ha, h0, s, hh, h₁⟩, h₂⟩
    · rintro ⟨r, ⟨ha, h0, s, hh, h₁⟩, h₂⟩
      exact ⟨ha, h0, s, hh, r, h₁, h₂⟩

theorem Segment.congr (h : Segment ram p l q)
    (hs : ∀ b ∈ l, ∀ i, b.addr ≤ i → i < b.addr + sizeofBlockMeta → ram' i = ram i) : Segment ram' p l q := by
  induction l generalizing p with
  | nil => exact h
  | cons b l ih =>
    obtain ⟨ha, h0, r, hh, hl⟩ := h
    refine ⟨ha, h0, r, hh.congr ?_, ih hl fun c hc => hs c (List.mem_cons_of_mem _ hc)⟩
    rw [ha]
    exact hs b List.mem_cons_self

theorem Segment.apart (h : Segment ram p l q) (hw : Within lo l hi)
    (hs : ∀ i, lo ≤ i → i < hi → ram' i = ram i) : Segment ram' p l q := by
  apply h.congr
  intro b hb i h₁ h₂
  obtain ⟨hlo, -, hstop⟩ := hw.of_mem hb
  unfold Block.stop at hstop
  exact hs i (by omega) (by omega)

theorem Segment.unique (h : Segment ram p l₁ 0) (h' : Segment ram p l₂ 0) : l₁ = l₂ := by
  induction l₁ generalizing p l₂ with
  | nil =>
    cases l₂ with
    | nil => rfl
    | cons c l₂ => exact absurd h h'.2.1
  | cons b l₁ ih =>
    cases l₂ with
    | nil => exact absurd h' h.2.1
    | cons c l₂ =>
      obtain ⟨ha, -, r, hh, hl⟩ := h
      obtain ⟨ha', -, r', hh', hl'⟩ := h'
      obtain rfl : r = r' := hh.next_eq.symm.trans hh'.next_eq
      have hbc : b = c := by
        cases b
        cases c
        simp only [Block.mk.injEq]
        exact ⟨ha.symm.trans ha', hh.size_eq.symm.trans hh'.size_eq, hh.free_eq.symm.trans hh'.free_eq⟩
      rw [hbc, ih hl hl']

theorem Segment.relink {c : Block} {pre post : List Block} (h : Segment ram p (pre ++ b :: post) q)
    (hw : Within lo (pre ++ b :: post) hi) (hs : SameBut ram ram' b.addr) (ha : c.addr = b.addr)
    (hh : ∀ r, Header ram b.addr b.size r b.free → Header ram' b.addr c.size r c.free) :
    Segment ram' p (pre ++ c :: post) q := by
  obtain ⟨r, hpre, hr, h0, t, hb, hpost⟩ := segment_append.mp h
  obtain ⟨mid, hwpre, hmid, -, hwpost⟩ := within_append.mp hw
  subst hr
  refine segment_append.mpr ⟨b.addr, hpre.apart hwpre fun i _ hi => ?_, ha.symm, h0, t, hh t hb, ?_⟩
  · exact hs i (by omega)
  · refine hpost.apart hwpost fun i hi _ => ?_
    unfold Block.stop at hi
    exact hs i (by omega)

theorem Segment.carve {n : Block} {ramN : Store} {size : ℕ} {pre post : List Block}
    (h : Segment ram p (pre ++ b :: post) q) (hw : Within lo (pre ++ b :: post) hi)
    (hN : SameBut ram ramN n.addr)
    (hB : SameBut ramN ram' b.addr) (hlo : b.addr + sizeofBlockMeta + size ≤ n.addr)
    (hhi : n.stop ≤ b.stop ∨ ∃ c ∈ post.head?, n.stop ≤ c.addr)
    (headN : ∀ r, Header ram b.addr b.size r b.free → Header ramN n.addr n.size r n.free)
    (headB : Header ramN b.addr b.size (blockNext ram b.addr) b.free → Header ram' b.addr size n.addr false) :
    Segment ram' p (pre ++ ⟨b.addr, size, false⟩ :: n :: post) q := by
  obtain ⟨r, hpre, hr, h0, t, hb, hpost⟩ := segment_append.mp h
  obtain ⟨mid, hwpre, hmid, -, hwpost⟩ := within_append.mp hw
  subst hr
  unfold Block.stop at hhi
  have hbN : Header ramN b.addr b.size (blockNext ram b.addr) b.free := by
    rw [hb.next_eq]
    exact hb.congr fun i _ hi => hN i (by omega)
  have hn : Header ram' n.addr n.size t n.free := (headN t hb).congr fun i hi _ => hB i (by omega)
  refine segment_append.mpr ⟨b.addr, hpre.apart hwpre fun i _ hi => ?_, rfl, h0, n.addr, headB hbN, rfl, ?_, t,
    hn, ?_⟩
  · rw [hB i (by omega), hN i (by omega)]
  · omega
  · apply hpost.congr
    intro c hc i h₁ h₂
    have hstop : b.stop ≤ c.addr ∧ n.addr + sizeofBlockMeta ≤ c.addr := by
      refine ⟨(hwpost.of_mem hc).1, ?_⟩
      rcases hhi with hhi | ⟨d, hd, hhi⟩
      · have hle := (hwpost.of_mem hc).1
        unfold Block.stop at hle
        omega
      · cases post with
        | nil => cases hc
        | cons e post =>
          cases hd
          rcases List.mem_cons.mp hc with rfl | hc
          · omega
          · have hle := (hwpost.2.2.of_mem hc).1
            unfold Block.stop at hle
            omega
    unfold Block.stop at hstop
    rw [hB i (by omega), hN i (by omega)]

end Segment

section Find
variable {ram : Store} {p fuel size last : ℕ} {b : Block} {l pre post : List Block}

theorem first_fit (size : ℕ) (l : List Block) :
    (∀ b ∈ l, ¬b.Fits size) ∨ ∃ pre b post, l = pre ++ b :: post ∧ (∀ c ∈ pre, ¬c.Fits size) ∧ b.Fits size := by
  induction l with
  | nil => exact .inl fun b hb => by cases hb
  | cons a l ih =>
    by_cases ha : a.Fits size
    · exact .inr ⟨[], a, l, rfl, fun c hc => (by cases hc), ha⟩
    · rcases ih with ih | ⟨pre, b, post, rfl, hpre, hb⟩
      · exact .inl (List.forall_mem_cons.mpr ⟨ha, ih⟩)
      · exact .inr ⟨a :: pre, b, post, rfl, List.forall_mem_cons.mpr ⟨ha, hpre⟩, hb⟩

theorem findFreeBlock_none (h : Listed ram p l) (hfuel : l.length < fuel) (hno : ∀ b ∈ l, ¬b.Fits size) :
    findFreeBlock ram size fuel p last = some (0, (l.getLast?.map Block.addr).getD last) := by
  induction l generalizing p fuel last with
  | nil =>
    obtain ⟨fuel, rfl⟩ := Nat.exists_eq_add_one.mpr hfuel
    obtain rfl : p = 0 := h
    rfl
  | cons b l ih =>
    obtain ⟨fuel, rfl⟩ := Nat.exists_eq_add_one.mpr (Nat.lt_of_le_of_lt (Nat.zero_le _) hfuel)
    obtain ⟨ha, h0, r, hh, hl⟩ := h
    obtain ⟨hb, hno⟩ := List.forall_mem_cons.mp hno
    unfold findFreeBlock
    rw [hh.free_eq, hh.size_eq, if_pos ⟨h0, hb⟩, hh.next_eq, ih hl (by simpa using hfuel) hno, ha]
    cases l with
    | nil => rfl
    | cons c l =>
      rw [List.getLast?_cons_cons, List.getLast?_cons]
      rfl

theorem findFreeBlock_some (last : ℕ) (h : Listed ram p (pre ++ b :: post)) (hfuel : pre.length < fuel)
    (hno : ∀ c ∈ pre, ¬c.Fits size)
    (hb : b.Fits size) : ∃ z, findFreeBlock ram size fuel p last = some (b.addr, z) := by
  induction pre generalizing p fuel last with
  | nil =>
    obtain ⟨fuel, rfl⟩ := Nat.exists_eq_add_one.mpr hfuel
    obtain ⟨ha, h0, r, hh, -⟩ := h
    refine ⟨last, ?_⟩
    unfold findFreeBlock
    rw [hh.free_eq, hh.size_eq, if_neg (fun hn => hn.2 hb), ha]
  | cons c pre ih =>
    obtain ⟨fuel, rfl⟩ := Nat.exists_eq_add_one.mpr (Nat.lt_of_le_of_lt (Nat.zero_le _) hfuel)
    obtain ⟨-, h0, r, hh, hl⟩ := h
    obtain ⟨hc, hno⟩ := List.forall_mem_cons.mp hno
    obtain ⟨z, hz⟩ := ih p hl (by simpa using hfuel) hno
    refine ⟨z, ?_⟩
    unfold findFreeBlock
    rw [hh.free_eq, hh.size_eq, if_pos ⟨h0, hc⟩, hh.next_eq]
    exact hz

end Find

theorem realign_eq {v : ℕ} (h : aligned v < 2 ^ 64) : realign v = aligned v := by
  unfold aligned at h ⊢
  unfold realign uintptr sizeofBlockMeta MEMORY_ALIGN
  dsimp only
  split <;> omega

theorem toInt_le {d : ℤ} (hd : -(2 ^ 31) ≤ d) (hpos : 0 < toInt d) : toInt d ≤ d := by
  unfold toInt at hpos ⊢
  rw [Int.bmod_def] at hpos ⊢
  split at hpos <;> omega

section Split
variable {ram : Store} {p lo hi size e : ℕ} {b : Block} {pre post : List Block}

structure Cut (ram ram' : Store) (p size : ℕ) (pre : List Block) (b : Block) (post : List Block) (e : ℕ)
    (b' : Block) (l' : List Block) : Prop where
  placed : Placed size (pre ++ b :: post) e b' l' e
  listed : Listed ram' p l'
  addr_eq : b'.addr = b.addr
  frame : ∀ i, (∀ c ∈ l', i < c.addr ∨ c.addr + sizeofBlockMeta ≤ i) → ram' i = ram i

theorem cut_whole (h : Listed ram p (pre ++ b :: post)) (hw : Within lo (pre ++ b :: post) hi)
    (hno : ∀ c ∈ pre, ¬c.Fits size) (hb : b.Fits size) :
    Cut ram (setFree ram b.addr false) p size pre b post e { b with free := false }
      (pre ++ { b with free := false } :: post) where
  placed := .take hno hb
  listed := Segment.relink h hw sameBut_refl.setFree rfl fun r hh => hh.setFree
  addr_eq := rfl
  frame := fun i hi => sameBut_refl.setFree i (hi { b with free := false } (by simp))

theorem cut_carved {ramN ramB : Store} {n : Block} (h : Listed ram p (pre ++ b :: post))
    (hw : Within lo (pre ++ b :: post) hi) (hno : ∀ c ∈ pre, ¬c.Fits size) (hb : b.Fits size)
    (hfree : n.free = true) (hmod : n.addr % 32 = 8) (hlo : b.addr + sizeofBlockMeta + size ≤ n.addr)
    (hhi : n.stop ≤ b.stop ∨ ∃ c ∈ post.head?, n.stop ≤ c.addr) (hN : SameBut ram ramN n.addr)
    (hB : SameBut ramN ramB b.addr)
    (headN : ∀ r, Header ram b.addr b.size r b.free → Header ramN n.addr n.size r n.free)
    (headB : Header ramN b.addr b.size (blockNext ram b.addr) b.free → Header ramB b.addr size n.addr false) :
    Cut ram ramB p size pre b post e ⟨b.addr, size, false⟩ (pre ++ ⟨b.addr, size, false⟩ :: n :: post) where
  placed := .cut n hno hb hfree hmod hlo hhi
  listed := Segment.carve h hw hN hB hlo hhi headN headB
  addr_eq := rfl
  frame := by
    intro i hi
    rw [hB i (hi ⟨b.addr, size, false⟩ (by simp)), hN i (hi n (by simp))]

theorem split_cut (h : Listed ram p (pre ++ b :: post)) (hw : Within lo (pre ++ b :: post) hi)
    (hhi : hi < 2 ^ 64) (hno : ∀ c ∈ pre, ¬c.Fits size) (hb : b.Fits size) :
    ∃ b', Cut ram (setFree (split ram b.addr size) b.addr false) p size pre b post e b'
      (pre ++ (cutBlocks b post size ++ post)) := by
  obtain ⟨hlo, hmod, hstop⟩ := hw.of_mem (b := b) (by simp)
  obtain ⟨r, hpre, hr, h0, t, hh, hpost⟩ := segment_append.mp h
  obtain ⟨mid, hwpre, hmid, -, hwpost⟩ := within_append.mp hw
  subst hr
  have hsize := hb.2
  unfold Block.stop sizeofBlockMeta at hstop
  have hwide : uintptr (size + sizeofBlockMeta) = size + sizeofBlockMeta :=
    Nat.mod_eq_of_lt (by unfold sizeofBlockMeta; omega)
  unfold split
  rw [hh.size_eq, hh.next_eq, hwide]
  by_cases hroom : size + sizeofBlockMeta < b.size
  · rw [if_pos hroom]
    -- the second part is put at the next aligned address past the request
    have hge := aligned_ge (b.addr + size + sizeofBlockMeta + 1)
    have hlt := aligned_lt (b.addr + size + sizeofBlockMeta + 1)
    have hm := aligned_mod (b.addr + size + sizeofBlockMeta + 1)
    have hat : realign (uintptr (b.addr + size + sizeofBlockMeta + 1)) = restAddr b size := by
      unfold restAddr
      unfold sizeofBlockMeta at hroom hlt hm ⊢
      rw [show uintptr (b.addr + size + 24 + 1) = b.addr + size + 24 + 1 from Nat.mod_eq_of_lt (by omega)]
      exact realign_eq (by omega)
    rw [hat]
    change b.addr + size + sizeofBlockMeta + 1 ≤ restAddr b size at hge
    change restAddr b size < _ at hlt
    change restAddr b size % 32 = 8 at hm
    unfold sizeofBlockMeta at hge hlt
    have hn : restAddr b size < 2 ^ 64 := by
      unfold sizeofBlockMeta at hroom
      omega
    dsimp only
    cases post with
    | nil =>
      obtain rfl : t = 0 := hpost
      rw [if_neg (by simp), cutBlocks]
      by_cases hpos : 0 < toInt ((b.addr : ℤ) + b.size - restAddr b size)
      · have hle :=
          toInt_le (d := (b.addr : ℤ) + b.size - restAddr b size)
          (by unfold sizeofBlockMeta at hroom; omega) hpos
        rw [if_pos hpos, if_pos (show Splits b [] size from ⟨hroom, hpos⟩)]
        refine ⟨_, cut_carved (n := ⟨restAddr b size, (restSize b [] size).toNat, true⟩) h hw hno hb rfl hm
          (by unfold sizeofBlockMeta; dsimp only; omega)
          (.inl (by unfold Block.stop sizeofBlockMeta restSize; dsimp only; omega))
          sameBut_refl.setSize.setFree.setNext sameBut_refl.setSize.setNext.setFree (fun r hr => ?_) (fun hr => ?_)⟩
        · obtain rfl : 0 = r := hh.next_eq.symm.trans hr.next_eq
          exact ((header_self.setSize (by omega)).setFree).setNext (by omega)
        · exact ((hr.setSize (by omega)).setNext hn).setFree
      · rw [if_neg hpos, if_neg (show ¬Splits b [] size from fun hs => hpos hs.2)]
        exact ⟨_, cut_whole h hw hno hb⟩
    | cons c post =>
      obtain ⟨rfl, hc0, s, hc, -⟩ := hpost
      have hnext : b.stop ≤ c.addr := hwpost.1
      have hcle := (hwpost.of_mem List.mem_cons_self).2.2
      unfold Block.stop sizeofBlockMeta at hnext hcle
      rw [if_pos hc0, cutBlocks]
      by_cases hpos : 0 < toInt ((c.addr : ℤ) - restAddr b size - sizeofBlockMeta)
      · have hle :=
          toInt_le (d := (c.addr : ℤ) - restAddr b size - sizeofBlockMeta)
          (by unfold sizeofBlockMeta; omega) hpos
        have hnb : blockNext (setSize ram (restAddr b size)
            (toInt ((c.addr : ℤ) - restAddr b size - sizeofBlockMeta)).toNat) b.addr = c.addr :=
          (hh.congr fun i _ hi => sameBut_refl.setSize i (by unfold sizeofBlockMeta at hi; omega)).next_eq
        rw [if_pos hpos, if_pos (show Splits b (c :: post) size from ⟨hroom, hpos⟩), hnb,
          show restSize b (c :: post) size = toInt ((c.addr : ℤ) - restAddr b size - sizeofBlockMeta) from rfl]
        generalize toInt ((c.addr : ℤ) - restAddr b size - sizeofBlockMeta) = z at hle hpos ⊢
        unfold sizeofBlockMeta at hle
        refine ⟨_, cut_carved (n := ⟨restAddr b size, z.toNat, true⟩) h hw hno hb rfl hm
          (by unfold sizeofBlockMeta; dsimp only; omega)
          (.inr ⟨c, rfl, by unfold Block.stop sizeofBlockMeta; dsimp only; omega⟩)
          sameBut_refl.setSize.setNext.setFree sameBut_refl.setNext.setSize.setFree (fun r hr => ?_) (fun hr => ?_)⟩
        · obtain rfl : c.addr = r := hh.next_eq.symm.trans hr.next_eq
          exact ((header_self.setSize (by omega)).setNext (by omega)).setFree
        · exact ((hr.setNext hn).setSize (by omega)).setFree
      · rw [if_neg hpos, if_neg (show ¬Splits b (c :: post) size from fun hs => hpos hs.2)]
        exact ⟨_, cut_whole h hw hno hb⟩
  · have hwhole : cutBlocks b post size = [{ b with free := false }] := if_neg fun hs => hroom hs.1
    rw [if_neg hroom, hwhole]
    exact ⟨_, cut_whole h hw hno hb⟩

end Split

inductive Paged (e : ℕ) : ℕ → List ℕ → ℕ → List ℕ → Prop
  | done {x : ℕ} {as : List ℕ} (h : e < x) : Paged e x as x as
  | more {x x' : ℕ} {as as' : List ℕ} (h : x ≤ e) (t : Paged e (uintptr (x + PAGE_LENGTH)) (x :: as) x' as') :
      Paged e x as x' as'

theorem assignPages_paged {fuel : ℕ} {m m' : Memory} (h : assignPages fuel m = some m') :
    m' = { m with highestAllocated := m'.highestAllocated, assigned := m'.assigned } ∧
      Paged m.end_ m.highestAllocated m.assigned m'.highestAllocated m'.assigned := by
  induction fuel generalizing m with
  | zero => cases h
  | succ fuel ih =>
    unfold assignPages at h
    split at h
    · rename_i hle
      obtain ⟨heq, hp⟩ := ih h
      exact ⟨heq, .more hle hp⟩
    · rename_i hlt
      cases h
      exact ⟨rfl, .done (Nat.lt_of_not_le hlt)⟩

def appended (ram : Store) (last a size : ℕ) : Store :=
  setFree (setNext (setSize (if last ≠ 0 then setNext ram last a else ram) a size) a 0) a false

theorem requestSpace_paged {m m' : Memory} {last size block : ℕ}
    (h : m.requestSpace last size = some (m', block)) :
    block = realign m.end_ ∧
      m' = { m with
        ram := appended m.ram last (realign m.end_) size
        end_ := uintptr (realign m.end_ + size + sizeofBlockMeta + 1)
        highestAllocated := m'.highestAllocated
        assigned := m'.assigned } ∧
      Paged (uintptr (realign m.end_ + size + sizeofBlockMeta + 1)) m.highestAllocated m.assigned m'.highestAllocated
        m'.assigned := by
  unfold requestSpace at h
  dsimp only at h
  split at h
  · cases h
  · rename_i m₁ hp
    cases h
    obtain ⟨heq, hpaged⟩ := assignPages_paged hp
    refine ⟨rfl, ?_, hpaged⟩
    rw [heq]
    rfl

section Append
variable {ram : Store} {p lo hi a size : ℕ} {l : List Block} {z : Block}

theorem appended_header (hsize : size < 2 ^ 64) (last : ℕ) : Header (appended ram last a size) a size 0 false :=
  ((header_self.setSize hsize).setNext (by omega)).setFree

theorem appended_listed (h : Listed ram p (l ++ [z])) (hw : Within lo (l ++ [z]) hi) (hle : hi ≤ a) (h0 : a ≠ 0)
    (ha : a < 2 ^ 64) (hsize : size < 2 ^ 64) :
    Listed (appended ram z.addr a size) p (l ++ [z] ++ [⟨a, size, false⟩]) := by
  have hlink := h
  obtain ⟨r, hl, hr, hz0, t, hz, ht⟩ := segment_append.mp hlink
  obtain ⟨mid, hwl, hmid, -, hstop⟩ := within_append.mp hw
  subst hr
  have hstop' : z.addr + sizeofBlockMeta ≤ a := by
    have hz := Within.le hstop
    unfold Block.stop at hz
    omega
  have hsame : SameBut (setNext ram z.addr a) (appended ram z.addr a size) a := by
    unfold appended
    rw [if_pos hz0]
    exact sameBut_refl.setSize.setNext.setFree
  have hzz : Header (appended ram z.addr a size) z.addr z.size a z.free :=
    (hz.setNext ha).congr fun i _ hi => hsame i (.inl (by omega))
  refine segment_append.mpr ⟨a, segment_append.mpr
    ⟨z.addr, hl.apart hwl fun i _ hi => ?_, rfl, hz0, a, hzz, rfl⟩, rfl, h0, 0, appended_header hsize _, rfl⟩
  rw [hsame i (.inl (by omega)), sameBut_refl.setNext i (.inl (by omega))]

theorem appended_frame {last : ℕ} (i : ℕ) (hlast : last ≠ 0 → i < last ∨ last + sizeofBlockMeta ≤ i)
    (ha : i < a ∨ a + sizeofBlockMeta ≤ i) : appended ram last a size i = ram i := by
  unfold appended
  rw [sameBut_refl.setSize.setNext.setFree i ha]
  split
  · rename_i h0
    exact sameBut_refl.setNext i (hlast h0)
  · rfl

end Append

theorem Segment.header_of_mem {ram : Store} {p q : ℕ} {l : List Block} {b : Block} (h : Segment ram p l q)
    (hb : b ∈ l) : b.addr ≠ 0 ∧ ∃ r, Header ram b.addr b.size r b.free := by
  obtain ⟨pre, post, rfl⟩ := List.append_of_mem hb
  obtain ⟨r, -, rfl, h0, t, hh, -⟩ := segment_append.mp h
  exact ⟨h0, t, hh⟩

/-- The memory keeps the blocks of `l`, and the allocations of `live` are handed out. -/
structure Kept (m : Memory) (l : List Block) (live : List (ℕ × ℕ)) : Prop where
  listed : Listed m.ram m.base l
  sound : Sound m.start m.end_ l m.allocated live
  start_lt : m.start < 2 ^ 64
  end_lt : m.end_ < 2 ^ 64

def Fitting (m : Memory) (size : ℕ) : Prop := ∃ l, Listed m.ram m.base l ∧ ∃ b ∈ l, b.Fits size

/-- The request is null, is met from the list, or leaves the heap's end below the
last address. -/
def Roomy (m : Memory) (size : ℕ) : Prop :=
  size = 0 ∨ Fitting m size ∨ aligned m.end_ + sizeofBlockMeta + size + 1 < 2 ^ 64

structure Allocated (m : Memory) (l : List Block) (size : ℕ) (m' : Memory) (p : ℕ) (b : Block)
    (l' : List Block) : Prop where
  placed : Placed size l m.end_ b l' m'.end_
  listed : Listed m'.ram m'.base l'
  result : p = b.addr + sizeofBlockMeta
  counted : m'.allocated = m.allocated + (b.size + sizeofBlockMeta)
  start_eq : m'.start = m.start
  high_eq : m'.high = m.high
  end_lt : m'.end_ < 2 ^ 64
  frame : ∀ i, (∀ c ∈ l', i < c.addr ∨ c.addr + sizeofBlockMeta ≤ i) → m'.ram i = m.ram i
  pages : Fitting m size ∧ m'.end_ = m.end_ ∧ m'.highestAllocated = m.highestAllocated ∧ m'.assigned = m.assigned ∨
    ¬Fitting m size ∧ m'.end_ = aligned m.end_ + sizeofBlockMeta + size + 1 ∧
      Paged m'.end_ m.highestAllocated m.assigned m'.highestAllocated m'.assigned

section Allocate
variable {m m' m₁ : Memory} {l l' : List Block} {live : List (ℕ × ℕ)} {size p : ℕ} {b : Block}

theorem Kept.reach_lt (hk : Kept m l live) : reach m.start m.end_ < 2 ^ 64 := by
  have hs := hk.start_lt
  have he := hk.end_lt
  unfold reach
  omega

theorem Kept.length_lt (hk : Kept m l live) : l.length < 2 ^ 64 := by
  have hlen := hk.sound.within.length_le
  have hlt := hk.reach_lt
  omega

theorem Kept.not_fitting (hk : Kept m l live) (hno : ∀ b ∈ l, ¬b.Fits size) : ¬Fitting m size := by
  rintro ⟨l', hl', b, hb, hfits⟩
  rw [hl'.unique hk.listed] at hb
  exact hno b hb hfits

theorem handOut_eq (m₁ : Memory) (hk : Kept m l live) (hp : Placed size l m.end_ b l' m₁.end_)
    (hl : Listed m₁.ram m₁.base l')
    (hend : m₁.end_ < 2 ^ 64) (ha : m₁.allocated = m.allocated) (hs : m₁.start = m.start) :
    handOut m₁ b.addr = ({ m₁ with allocated := m.allocated + (b.size + sizeofBlockMeta) },
      b.addr + sizeofBlockMeta) := by
  have hsound := hk.sound.placed hp
  obtain ⟨hmem, -, -⟩ := hp.holds
  obtain ⟨-, r, hh⟩ := hl.header_of_mem hmem
  have huse := hsound.within.inUse_le
  have hstop := (hsound.within.of_mem hmem).2.2
  have hstart := hk.start_lt
  rw [← hsound.counted] at huse
  unfold Block.stop at hstop
  unfold reach at huse hstop
  unfold handOut
  rw [hh.size_eq, ha, show uintptr (m.allocated + (b.size + sizeofBlockMeta)) = _ from Nat.mod_eq_of_lt
    (by omega), show uintptr (b.addr + sizeofBlockMeta) = _ from Nat.mod_eq_of_lt (by omega)]

theorem request_end (h : aligned m.end_ + sizeofBlockMeta + size + 1 < 2 ^ 64) :
    realign m.end_ = aligned m.end_ ∧
      uintptr (realign m.end_ + size + sizeofBlockMeta + 1) = aligned m.end_ + sizeofBlockMeta + size + 1 := by
  have hat : realign m.end_ = aligned m.end_ := realign_eq (by omega)
  refine ⟨hat, ?_⟩
  rw [hat, Nat.add_right_comm _ size]
  exact Nat.mod_eq_of_lt h

def lastAddr (l : List Block) : ℕ := (l.getLast?.map Block.addr).getD 0

theorem grown {last block : ℕ} (base : ℕ) (hk : Kept m l live) (hno : ∀ b ∈ l, ¬b.Fits size)
    (hroom : aligned m.end_ + sizeofBlockMeta + size + 1 < 2 ^ 64)
    (hreq : m.requestSpace last size = some (m₁, block))
    (hlast : last = lastAddr l) (hbase : base = if l = [] then block else m.base) :
    ∃ b l', Allocated m l size (handOut { m₁ with base := base } block).1
      (handOut { m₁ with base := base } block).2 b l' := by
  obtain ⟨hat, hend⟩ := request_end hroom
  obtain ⟨hblock, hm₁, hpaged⟩ := requestSpace_paged hreq
  rw [hend] at hpaged
  rw [hend, hat] at hm₁
  rw [hat] at hblock
  have hmod := aligned_mod m.end_
  have hge := aligned_ge m.end_
  have he₁ : m₁.end_ = aligned m.end_ + sizeofBlockMeta + size + 1 := by rw [hm₁]
  have hram : m₁.ram = appended m.ram last (aligned m.end_) size := by rw [hm₁]
  have hplaced : Placed size l m.end_ ⟨aligned m.end_, size, false⟩ (l ++ [⟨aligned m.end_, size, false⟩])
      m₁.end_ := by
    rw [he₁]
    exact .grow hno
  have hlisted : Listed m₁.ram base (l ++ [⟨aligned m.end_, size, false⟩]) := by
    rw [hram, hlast, hbase, hblock]
    rcases List.eq_nil_or_concat' l with rfl | ⟨init, z, rfl⟩
    · exact ⟨rfl, by rw [if_pos rfl]; omega, 0, by rw [if_pos rfl]; exact appended_header (by omega) _, rfl⟩
    · have hlz : lastAddr (init ++ [z]) = z.addr := by simp [lastAddr]
      rw [if_neg (by simp), hlz]
      refine appended_listed hk.listed hk.sound.within ?_ (by omega) (by omega) (by omega)
      have hs := hk.sound.start_le
      unfold reach
      omega
  have hout := handOut_eq { m₁ with base := base } hk hplaced hlisted (by rw [he₁]; exact hroom) (by rw [hm₁])
    (by rw [hm₁])
  rw [hblock, hout]
  refine ⟨_, _, hplaced, hlisted, rfl, rfl, by rw [hm₁], by rw [hm₁], by rw [hm₁]; exact hroom, fun i hi => ?_,
    .inr ⟨hk.not_fitting hno, he₁, by rw [he₁]; exact hpaged⟩⟩
  have hnew := hi ⟨aligned m.end_, size, false⟩ (by simp)
  rw [hram]
  refine appended_frame i (fun hn => ?_) hnew
  rcases List.eq_nil_or_concat' l with rfl | ⟨init, z, rfl⟩
  · exact absurd hlast hn
  · rw [hlast, show lastAddr (init ++ [z]) = z.addr by simp [lastAddr]]
    exact hi z (by simp)

theorem reused {pre post : List Block} (hk : Kept m (pre ++ b :: post) live) (hno : ∀ c ∈ pre, ¬c.Fits size)
    (hb : b.Fits size) :
    ∃ b', b'.addr = b.addr ∧ Allocated m (pre ++ b :: post) size
      (handOut { m with ram := setFree (split m.ram b.addr size) b.addr false } b.addr).1
      (handOut { m with ram := setFree (split m.ram b.addr size) b.addr false } b.addr).2 b'
      (pre ++ (cutBlocks b post size ++ post)) := by
  obtain ⟨b', hcut⟩ := split_cut (e := m.end_) hk.listed hk.sound.within hk.reach_lt hno hb
  have hout := handOut_eq { m with ram := setFree (split m.ram b.addr size) b.addr false } hk hcut.placed
    hcut.listed hk.end_lt rfl rfl
  rw [← hcut.addr_eq, hcut.addr_eq, ← hcut.addr_eq] at hout
  rw [← hcut.addr_eq, hout]
  refine ⟨b', rfl, hcut.placed, ?_, rfl, rfl, rfl, rfl, hk.end_lt, ?_,
    .inl ⟨⟨_, hk.listed, b, by simp, hb⟩, rfl, rfl, rfl⟩⟩
  · rw [hcut.addr_eq]
    exact hcut.listed
  · rw [hcut.addr_eq]
    exact hcut.frame

theorem allocate_found {pre post : List Block} (hk : Kept m (pre ++ b :: post) live) (h0 : size ≠ 0)
    (hno : ∀ c ∈ pre, ¬c.Fits size) (hb : b.Fits size) :
    m.allocate size = some (handOut { m with ram := setFree (split m.ram b.addr size) b.addr false } b.addr) := by
  have hlen := hk.length_lt
  rw [List.length_append] at hlen
  have hbase : m.base ≠ 0 := by
    intro hzero
    have hlisted := hk.listed
    rw [hzero] at hlisted
    cases pre with
    | nil => exact hlisted.2.1 rfl
    | cons c pre => exact hlisted.2.1 rfl
  obtain ⟨z, hz⟩ := findFreeBlock_some m.base hk.listed (show pre.length < 2 ^ 64 by omega) hno hb
  unfold allocate
  rw [if_neg h0, if_neg hbase, hz]
  dsimp only
  rw [if_neg (hk.listed.header_of_mem (b := b) (by simp)).1]

theorem allocate_spec (hk : Kept m l live) (h0 : size ≠ 0) (hroom : Roomy m size)
    (h : m.allocate size = some (m', p)) : ∃ b l', Allocated m l size m' p b l' := by
  have hlen := hk.length_lt
  have hspace : (∀ b ∈ l, ¬b.Fits size) → aligned m.end_ + sizeofBlockMeta + size + 1 < 2 ^ 64 := by
    intro hno
    rcases hroom with hz | hfit | hroom
    · exact absurd hz h0
    · exact absurd hfit (hk.not_fitting hno)
    · exact hroom
  have hnew : ∀ {last block : ℕ} {m₁ : Memory},
      m.requestSpace last size = some (m₁, block) → (∀ b ∈ l, ¬b.Fits size) → block ≠ 0 := by
    intro last block m₁ hreq hno
    obtain ⟨rfl, -, -⟩ := requestSpace_paged hreq
    have hmod := aligned_mod m.end_
    rw [(request_end (hspace hno)).1]
    omega
  unfold allocate at h
  rw [if_neg h0] at h
  by_cases hbase : m.base = 0
  · obtain rfl : l = [] := by
      cases l with
      | nil => rfl
      | cons b l => exact absurd hbase hk.listed.2.1
    have hno : ∀ b ∈ ([] : List Block), ¬b.Fits size := fun b hb => by cases hb
    rw [if_pos hbase] at h
    split at h
    · cases h
    · rename_i m₁ block hreq
      rw [if_neg (hnew hreq hno), Option.some.injEq] at h
      have hg := grown block hk hno (hspace hno) hreq rfl rfl
      rw [h] at hg
      exact hg
  · rw [if_neg hbase] at h
    rcases first_fit size l with hno | ⟨pre, b, post, rfl, hno, hb⟩
    · rw [findFreeBlock_none hk.listed hlen hno] at h
      dsimp only at h
      rw [if_pos rfl] at h
      split at h
      · cases h
      · rename_i m₁ block hreq
        rw [if_neg (hnew hreq hno), Option.some.injEq] at h
        have hne : l ≠ [] := by
          rintro rfl
          exact hbase hk.listed
        have hlast : (l.getLast?.map Block.addr).getD m.base = lastAddr l := by
          unfold lastAddr
          rw [List.getLast?_eq_some_getLast hne]
          rfl
        have hbm : m₁.base = m.base := by
          obtain ⟨-, hm₁, -⟩ := requestSpace_paged hreq
          rw [hm₁]
        have hg := grown m₁.base hk hno (hspace hno) hreq hlast (by rw [if_neg hne, hbm])
        rw [show { m₁ with base := m₁.base } = m₁ from rfl, h] at hg
        exact hg
    · have hfound := allocate_found hk h0 hno hb
      unfold allocate at hfound
      rw [if_neg h0, if_neg hbase] at hfound
      obtain ⟨b', -, hg⟩ := reused hk hno hb
      rw [← Option.some.inj (h.symm.trans hfound)] at hg
      exact ⟨b', _, hg⟩

end Allocate

section Merge
variable {ram : Store} {p lo hi : ℕ} {b c : Block} {l : List Block}

theorem merged_listed (h : Listed ram p (b :: c :: l)) (hw : Within lo (b :: c :: l) hi) (hhi : hi < 2 ^ 64) :
    Listed (setNext (setSize ram p (b.size + (sizeofBlockMeta + c.size))) p (blockNext ram c.addr)) p
      (⟨b.addr, b.size + (sizeofBlockMeta + c.size), b.free⟩ :: l) := by
  obtain ⟨rfl, h0, r, hb, rfl, -, s, hc, hl⟩ := h
  obtain ⟨hlo, -, hbc, -, hwl⟩ := hw
  have hcs := hwl.le
  unfold Block.stop at hbc hcs
  have hs : s < 2 ^ 64 := by
    cases l with
    | nil =>
      obtain rfl : s = 0 := hl
      omega
    | cons d l =>
      obtain ⟨rfl, -⟩ := hl
      have hd := (hwl.of_mem List.mem_cons_self).2.2
      unfold Block.stop at hd
      omega
  refine ⟨rfl, h0, s, ?_, hl.apart hwl fun i hi _ => ?_⟩
  · rw [hc.next_eq]
    exact (hb.setSize (by omega)).setNext hs
  · unfold Block.stop at hi
    exact sameBut_refl.setSize.setNext i (.inr (by omega))

theorem mergeFrom_spec (fuel count : ℕ) (h : Listed ram p (b :: l)) (hw : Within lo (b :: l) hi)
    (hhi : hi < 2 ^ 64) (hfuel : l.length < fuel) :
    ∃ ram' n, mergeFrom fuel ram p count = some (ram', n) ∧ Listed ram' p (mergeBlocks b l) ∧
      ∀ i, (∀ c ∈ b :: l, i < c.addr ∨ c.addr + sizeofBlockMeta ≤ i) → ram' i = ram i := by
  induction l generalizing ram p b lo fuel count with
  | nil =>
    obtain ⟨fuel, rfl⟩ := Nat.exists_eq_add_one.mpr hfuel
    have hlist := h
    obtain ⟨rfl, -, r, hh, rfl⟩ := hlist
    refine ⟨ram, count, ?_, h, fun i _ => rfl⟩
    unfold mergeFrom
    rw [hh.next_eq, if_neg (fun hn => hn.2 rfl)]
  | cons c l ih =>
    obtain ⟨fuel, rfl⟩ := Nat.exists_eq_add_one.mpr (Nat.lt_of_le_of_lt (Nat.zero_le _) hfuel)
    have hlist := h
    have hwithin := hw
    obtain ⟨rfl, h0, r, hb, rfl, hc0, s, hc, hl⟩ := hlist
    obtain ⟨hlo, hmod, hbc, hcmod, hwl⟩ := hwithin
    unfold mergeFrom mergeBlocks
    rw [hb.next_eq, hb.free_eq, hc.free_eq, hb.size_eq, hc.size_eq, if_pos ⟨h0, hc0⟩]
    split
    · have hmerged := merged_listed h hw hhi
      have hnext : blockNext (setSize ram b.addr (b.size + (sizeofBlockMeta + c.size))) b.addr = c.addr :=
        (hb.setSize (by
          have hcs := hwl.le
          unfold Block.stop at hbc hcs
          omega)).next_eq
      have hnextc : blockNext (setSize ram b.addr (b.size + (sizeofBlockMeta + c.size))) c.addr =
          blockNext ram c.addr := by
        rw [hc.next_eq]
        refine (hc.congr fun i hi _ => sameBut_refl.setSize i (.inr ?_)).next_eq
        unfold Block.stop at hbc
        omega
      dsimp only
      rw [hnext, hnextc]
      have hw' : Within lo (⟨b.addr, b.size + (sizeofBlockMeta + c.size), b.free⟩ :: l) hi := by
        refine ⟨hlo, hmod, hwl.lo_le ?_⟩
        unfold Block.stop at hbc ⊢
        dsimp only
        omega
      obtain ⟨ram', n, he, hl', hframe⟩ := ih fuel (count + 1) hmerged hw' (by simpa using hfuel)
      refine ⟨ram', n, he, hl', fun i hi => ?_⟩
      obtain ⟨hib, hi⟩ := List.forall_mem_cons.mp hi
      obtain ⟨-, hi⟩ := List.forall_mem_cons.mp hi
      rw [hframe i (List.forall_mem_cons.mpr ⟨hib, hi⟩)]
      exact sameBut_refl.setSize.setNext i hib
    · have hwc : Within b.stop (c :: l) hi := ⟨hbc, hcmod, hwl⟩
      obtain ⟨ram', n, he, hl', hframe⟩ := ih fuel count ⟨rfl, hc0, s, hc, hl⟩ hwc
        (by simpa using hfuel)
      refine ⟨ram', n, he, ⟨rfl, h0, c.addr, hb.congr fun i _ hlt => hframe i fun d hd => .inl ?_, hl'⟩,
        fun i hi => ?_⟩
      · have hd := (hwc.of_mem hd).1
        unfold Block.stop at hd
        omega
      · exact hframe i (List.forall_mem_cons.mp hi).2

end Merge

structure Freed (m : Memory) (l : List Block) (b : Block) (m' : Memory) (l' : List Block) : Prop where
  released : Released b.addr l l'
  listed : Listed m'.ram m'.base l'
  same : m' = { m with ram := m'.ram, allocated := m.allocated - (b.size + sizeofBlockMeta) }
  frame : ∀ i, (∀ c ∈ l, i < c.addr ∨ c.addr + sizeofBlockMeta ≤ i) → m'.ram i = m.ram i

theorem merge_spec {m : Memory} {l : List Block} {lo hi : ℕ} (h : Listed m.ram m.base l) (hw : Within lo l hi)
    (hhi : hi < 2 ^ 64) (hlen : l.length < 2 ^ 64) :
    ∃ ram' n, m.merge = some ({ m with ram := ram' }, n) ∧ Listed ram' m.base (mergeList l) ∧
      ∀ i, (∀ c ∈ l, i < c.addr ∨ c.addr + sizeofBlockMeta ≤ i) → ram' i = m.ram i := by
  unfold merge
  cases l with
  | nil =>
    refine ⟨m.ram, 0, ?_, h, fun i _ => rfl⟩
    have hbase : m.base = 0 := h
    have he : mergeFrom (2 ^ 64) m.ram m.base 0 = some (m.ram, 0) := by
      rw [show 2 ^ 64 = 2 ^ 64 - 1 + 1 from rfl]
      unfold mergeFrom
      rw [if_neg fun hn => hn.1 hbase]
    rw [he]
  | cons b l =>
    obtain ⟨ram', n, he, hl, hframe⟩ := mergeFrom_spec (2 ^ 64) 0 h hw hhi
      (by rw [List.length_cons] at hlen; omega)
    refine ⟨ram', n, ?_, hl, hframe⟩
    rw [he]

theorem free_spec {m : Memory} {l : List Block} {live : List (ℕ × ℕ)} {p n : ℕ} (hk : Kept m l live)
    (hp : (p, n) ∈ live) :
    ∃ b m' l', b ∈ l ∧ b.free = false ∧ p = b.addr + sizeofBlockMeta ∧ m.free p = some m' ∧ Freed m l b m' l' := by
  obtain ⟨b, hb, hfree, haddr, -⟩ := hk.sound.held (p, n) hp
  dsimp only at haddr
  subst haddr
  have hreach := hk.reach_lt
  have hstop := (hk.sound.within.of_mem hb).2.2
  have huse := hk.sound.within.inUse_le
  have hcount := hk.sound.counted
  obtain ⟨pre, post, rfl⟩ := List.append_of_mem hb
  obtain ⟨-, r, hh⟩ := hk.listed.header_of_mem hb
  unfold Block.stop at hstop
  have hblock : getBlock (b.addr + sizeofBlockMeta) = b.addr := by
    unfold getBlock uintptr sizeofBlockMeta
    omega
  have hlist : Listed (setFree m.ram b.addr true) m.base (pre ++ { b with free := true } :: post) :=
    Segment.relink hk.listed hk.sound.within sameBut_refl.setFree rfl fun r hh => hh.setFree
  have hlen := hk.length_lt
  have hgone := Released.inUse_eq (.release rfl) hk.sound.within hb rfl hfree
  obtain ⟨ram', k, hm, hl', hframe⟩ := merge_spec
    (m := { m with ram := setFree m.ram b.addr true, allocated := m.allocated - (b.size + sizeofBlockMeta) }) hlist
    (hk.sound.within.replace rfl (Nat.le_refl _)) hreach (by simpa using hlen)
  refine ⟨b, { m with ram := ram', allocated := m.allocated - (b.size + sizeofBlockMeta) }, _, hb, hfree, rfl,
    ?_, .release rfl, hl', rfl, fun i hi => ?_⟩
  · unfold Memory.free
    rw [if_neg (by unfold sizeofBlockMeta; omega), hblock]
    dsimp only
    rw [(hh.setFree (f := true)).size_eq]
    have hsub : uintptr (m.allocated + (2 ^ 64 - uintptr (b.size + sizeofBlockMeta))) =
        m.allocated - (b.size + sizeofBlockMeta) := by
      rw [show uintptr (b.size + sizeofBlockMeta) = b.size + sizeofBlockMeta from Nat.mod_eq_of_lt (by omega)]
      unfold uintptr
      omega
    rw [hsub, hm]
  · have hout : ∀ c ∈ pre ++ { b with free := true } :: post, i < c.addr ∨ c.addr + sizeofBlockMeta ≤ i := by
      intro c hc
      rcases List.mem_append.mp hc with hc | hc
      · exact hi c (List.mem_append_left _ hc)
      · rcases List.mem_cons.mp hc with rfl | hc
        · exact hi b (by simp)
        · exact hi c (List.mem_append_right _ (List.mem_cons_of_mem _ hc))
    exact (hframe i hout).trans (sameBut_refl.setFree i (hi b hb))

end Thorn.Heap

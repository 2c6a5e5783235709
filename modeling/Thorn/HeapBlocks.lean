import Thorn.HeapMemory

set_option autoImplicit false

namespace Thorn.Heap

structure Block where
  addr : ℕ
  size : ℕ
  free : Bool

namespace Block

def stop (b : Block) : ℕ := b.addr + sizeofBlockMeta + b.size

def Fits (size : ℕ) (b : Block) : Prop := b.free = true ∧ size ≤ b.size

end Block

theorem Block.Fits.not_used {size : ℕ} {b : Block} (h : b.Fits size) (hf : b.free = false) : False := by
  have hfree := h.1
  rw [hf] at hfree
  cases hfree

/-- The blocks lie between `lo` and `hi`, in order and apart, each payload at a
multiple of 32. -/
def Within : ℕ → List Block → ℕ → Prop
  | lo, [], hi => lo ≤ hi
  | lo, b :: l, hi => lo ≤ b.addr ∧ b.addr % 32 = 8 ∧ Within b.stop l hi

def Coalesced (l : List Block) : Prop := l.IsChain fun b c => ¬(b.free = true ∧ c.free = true)

def inUse (l : List Block) : ℕ := ((l.filter fun b => !b.free).map fun b => b.size + sizeofBlockMeta).sum

/-- The block of an allocation is in the list, in use and large enough. -/
def Holds (l : List Block) (x : ℕ × ℕ) : Prop :=
  ∃ b ∈ l, b.free = false ∧ b.addr + sizeofBlockMeta = x.1 ∧ x.2 ≤ b.size

def aligned (e : ℕ) : ℕ := e + (40 - e % 32) % 32

theorem aligned_ge (e : ℕ) : e ≤ aligned e := Nat.le_add_right _ _

theorem aligned_mod (e : ℕ) : aligned e % 32 = 8 := by
  unfold aligned
  omega

theorem aligned_lt (e : ℕ) : aligned e < e + 32 := by
  unfold aligned
  omega

section Within
variable {lo lo' hi hi' : ℕ} {b c : Block} {l l₁ l₂ pre post : List Block}

theorem Within.le (h : Within lo l hi) : lo ≤ hi := by
  induction l generalizing lo with
  | nil => exact h
  | cons b l ih =>
    obtain ⟨hlo, -, hl⟩ := h
    have hb := ih hl
    unfold Block.stop at hb
    omega

theorem Within.lo_le (h : Within lo l hi) (hle : lo' ≤ lo) : Within lo' l hi := by
  cases l with
  | nil => exact Nat.le_trans hle h
  | cons b l => exact ⟨Nat.le_trans hle h.1, h.2⟩

theorem within_append : Within lo (l₁ ++ l₂) hi ↔ ∃ mid, Within lo l₁ mid ∧ Within mid l₂ hi := by
  induction l₁ generalizing lo with
  | nil =>
    constructor
    · exact fun h => ⟨lo, Nat.le_refl lo, h⟩
    · rintro ⟨mid, hm, h⟩
      exact h.lo_le hm
  | cons b l₁ ih =>
    simp only [List.cons_append, Within, ih]
    constructor
    · rintro ⟨hlo, ha, mid, h₁, h₂⟩
      exact ⟨mid, ⟨hlo, ha, h₁⟩, h₂⟩
    · rintro ⟨mid, ⟨hlo, ha, h₁⟩, h₂⟩
      exact ⟨hlo, ha, mid, h₁, h₂⟩

theorem Within.of_mem (h : Within lo l hi) (hb : b ∈ l) : lo ≤ b.addr ∧ b.addr % 32 = 8 ∧ b.stop ≤ hi := by
  obtain ⟨l₁, l₂, rfl⟩ := List.append_of_mem hb
  obtain ⟨mid, h₁, hmid, ha, h₂⟩ := within_append.mp h
  exact ⟨Nat.le_trans h₁.le hmid, ha, h₂.le⟩

theorem Within.pairwise (h : Within lo l hi) : l.Pairwise fun b c => b.stop ≤ c.addr := by
  induction l generalizing lo with
  | nil => exact List.Pairwise.nil
  | cons b l ih =>
    obtain ⟨-, -, hl⟩ := h
    exact List.pairwise_cons.mpr ⟨fun c hc => (hl.of_mem hc).1, ih hl⟩

theorem Within.length_le (h : Within lo l hi) : lo + 24 * l.length ≤ hi := by
  induction l generalizing lo with
  | nil => exact h
  | cons b l ih =>
    obtain ⟨hlo, -, hl⟩ := h
    have hb := ih hl
    unfold Block.stop sizeofBlockMeta at hb
    rw [List.length_cons]
    omega

theorem Within.replace (h : Within lo (pre ++ b :: post) hi) (ha : c.addr = b.addr) (hs : c.size ≤ b.size) :
    Within lo (pre ++ c :: post) hi := by
  obtain ⟨mid, h₁, hmid, hmod, h₂⟩ := within_append.mp h
  refine within_append.mpr ⟨mid, h₁, by omega, by rw [ha]; exact hmod, h₂.lo_le ?_⟩
  unfold Block.stop
  omega

theorem Within.apart (h : Within lo l hi) (hb : b ∈ l) (hc : c ∈ l) (hne : b.addr ≠ c.addr) :
    b.stop ≤ c.addr ∨ c.stop ≤ b.addr := by
  obtain ⟨l₁, l₂, rfl⟩ := List.append_of_mem hb
  obtain ⟨mid, h₁, hmid, -, h₂⟩ := within_append.mp h
  rcases List.mem_append.mp hc with hc | hc
  · have hstop := (h₁.of_mem hc).2.2
    exact .inr (Nat.le_trans hstop hmid)
  · rcases List.mem_cons.mp hc with rfl | hc
    · exact absurd rfl hne
    · exact .inl (h₂.of_mem hc).1

theorem Within.eq_of_addr (h : Within lo l hi) (hb : b ∈ l) (hc : c ∈ l) (he : b.addr = c.addr) : b = c := by
  obtain ⟨l₁, l₂, rfl⟩ := List.append_of_mem hb
  obtain ⟨mid, h₁, hmid, -, h₂⟩ := within_append.mp h
  rcases List.mem_append.mp hc with hc | hc
  · have hstop := (h₁.of_mem hc).2.2
    unfold Block.stop sizeofBlockMeta at hstop
    omega
  · rcases List.mem_cons.mp hc with rfl | hc
    · rfl
    · have hlt := (h₂.of_mem hc).1
      unfold Block.stop sizeofBlockMeta at hlt
      omega

end Within

section InUse
variable {b : Block} {l l₁ l₂ : List Block}

@[simp] theorem inUse_nil : inUse [] = 0 := rfl

theorem inUse_cons : inUse (b :: l) = (if b.free then 0 else b.size + sizeofBlockMeta) + inUse l := by
  unfold inUse
  cases hb : b.free with
  | true => rw [List.filter_cons_of_neg (by simp [hb]), if_pos rfl, Nat.zero_add]
  | false => rw [List.filter_cons_of_pos (by simp [hb]), List.map_cons, List.sum_cons, if_neg Bool.false_ne_true]

theorem inUse_append : inUse (l₁ ++ l₂) = inUse l₁ + inUse l₂ := by
  simp [inUse]

theorem Within.inUse_le {lo hi : ℕ} (h : Within lo l hi) : lo + inUse l ≤ hi := by
  induction l generalizing lo with
  | nil => exact h
  | cons b l ih =>
    obtain ⟨hlo, -, hl⟩ := h
    have hb := ih hl
    rw [inUse_cons]
    unfold Block.stop at hb
    split <;> omega

end InUse

/-- What an allocation of `size` bytes that succeeds makes of the blocks and of
the heap's end, and the block it hands out. -/
inductive Placed (size : ℕ) : List Block → ℕ → Block → List Block → ℕ → Prop
  | grow {l : List Block} {e : ℕ} (hno : ∀ b ∈ l, ¬b.Fits size) :
      Placed size l e ⟨aligned e, size, false⟩
        (l ++ [⟨aligned e, size, false⟩]) (aligned e + sizeofBlockMeta + size + 1)
  | take {pre post : List Block} {b : Block} {e : ℕ} (hno : ∀ c ∈ pre, ¬c.Fits size) (hb : b.Fits size) :
      Placed size (pre ++ b :: post) e { b with free := false } (pre ++ { b with free := false } :: post) e
  | cut {pre post : List Block} {b : Block} {e : ℕ} (n : Block) (hno : ∀ c ∈ pre, ¬c.Fits size) (hb : b.Fits size)
      (hfree : n.free = true) (hmod : n.addr % 32 = 8) (hlo : b.addr + sizeofBlockMeta + size ≤ n.addr)
      (hhi : n.stop ≤ b.stop ∨ ∃ c ∈ post.head?, n.stop ≤ c.addr) :
      Placed size (pre ++ b :: post) e ⟨b.addr, size, false⟩ (pre ++ ⟨b.addr, size, false⟩ :: n :: post) e

def restAddr (b : Block) (size : ℕ) : ℕ := aligned (b.addr + size + sizeofBlockMeta + 1)

def restSize (b : Block) (post : List Block) (size : ℕ) : ℤ :=
  match post with
  | [] => Memory.toInt (b.addr + b.size - restAddr b size)
  | c :: _ => Memory.toInt (c.addr - restAddr b size - sizeofBlockMeta)

/-- The block is large enough to be cut, and its rest is not empty. -/
def Splits (b : Block) (post : List Block) (size : ℕ) : Prop :=
  size + sizeofBlockMeta < b.size ∧ 0 < restSize b post size

instance (b : Block) (post : List Block) (size : ℕ) : Decidable (Splits b post size) :=
  inferInstanceAs (Decidable (_ ∧ _))

def cutBlocks (b : Block) (post : List Block) (size : ℕ) : List Block :=
  if Splits b post size then [⟨b.addr, size, false⟩, ⟨restAddr b size, (restSize b post size).toNat, true⟩]
  else [{ b with free := false }]

def mergeBlocks : Block → List Block → List Block
  | b, [] => [b]
  | b, c :: l =>
    if b.free ∧ c.free then mergeBlocks ⟨b.addr, b.size + (sizeofBlockMeta + c.size), b.free⟩ l
    else b :: mergeBlocks c l

def mergeList : List Block → List Block
  | [] => []
  | b :: l => mergeBlocks b l

inductive Released (a : ℕ) : List Block → List Block → Prop
  | release {pre post : List Block} {b : Block} (ha : b.addr = a) :
      Released a (pre ++ b :: post) (mergeList (pre ++ { b with free := true } :: post))

section Merge
variable {lo hi : ℕ} {b c : Block} {l : List Block} {x : ℕ × ℕ}

theorem mergeBlocks_within (h : Within lo (b :: l) hi) : Within lo (mergeBlocks b l) hi := by
  induction l generalizing lo b with
  | nil => exact h
  | cons c l ih =>
    obtain ⟨hlo, hmod, hc, hcmod, hl⟩ := h
    unfold mergeBlocks
    split
    · refine ih ⟨hlo, hmod, hl.lo_le ?_⟩
      unfold Block.stop at hc ⊢
      dsimp only
      omega
    · exact ⟨hlo, hmod, ih ⟨hc, hcmod, hl⟩⟩

theorem mergeList_within (h : Within lo l hi) : Within lo (mergeList l) hi := by
  cases l with
  | nil => exact h
  | cons b l => exact mergeBlocks_within h

theorem mergeBlocks_head : ∃ c t, mergeBlocks b l = c :: t ∧ c.addr = b.addr ∧ c.free = b.free := by
  induction l generalizing b with
  | nil => exact ⟨b, [], rfl, rfl, rfl⟩
  | cons d l ih =>
    unfold mergeBlocks
    split
    · obtain ⟨c, t, he, ha, hf⟩ := ih (b := ⟨b.addr, b.size + (sizeofBlockMeta + d.size), b.free⟩)
      exact ⟨c, t, he, ha, hf⟩
    · exact ⟨b, mergeBlocks d l, rfl, rfl, rfl⟩

theorem mergeBlocks_coalesced : Coalesced (mergeBlocks b l) := by
  induction l generalizing b with
  | nil => exact List.isChain_singleton b
  | cons c l ih =>
    unfold mergeBlocks
    split
    · exact ih
    · rename_i hfree
      obtain ⟨d, t, he, -, hf⟩ := mergeBlocks_head (b := c) (l := l)
      have htail := ih (b := c)
      unfold Coalesced at htail ⊢
      rw [he] at htail ⊢
      exact List.isChain_cons_cons.mpr ⟨by rw [hf]; exact hfree, htail⟩

theorem mergeList_coalesced : Coalesced (mergeList l) := by
  cases l with
  | nil => exact List.isChain_nil
  | cons b l => exact mergeBlocks_coalesced

theorem mergeBlocks_inUse : inUse (mergeBlocks b l) = inUse (b :: l) := by
  induction l generalizing b with
  | nil => rfl
  | cons c l ih =>
    unfold mergeBlocks
    split
    · rename_i hfree
      rw [ih, inUse_cons, inUse_cons, inUse_cons]
      simp only [hfree.1, hfree.2, if_true, Nat.zero_add]
    · rw [inUse_cons, ih, inUse_cons (b := b)]

theorem mergeList_inUse : inUse (mergeList l) = inUse l := by
  cases l with
  | nil => rfl
  | cons b l => exact mergeBlocks_inUse

theorem mem_mergeBlocks (hc : c ∈ b :: l) (hf : c.free = false) : c ∈ mergeBlocks b l := by
  induction l generalizing b with
  | nil => exact hc
  | cons d l ih =>
    unfold mergeBlocks
    split
    · rename_i hfree
      apply ih
      rcases List.mem_cons.mp hc with rfl | hc
      · rw [hf] at hfree
        cases hfree.1
      · rcases List.mem_cons.mp hc with rfl | hc
        · rw [hf] at hfree
          cases hfree.2
        · exact List.mem_cons_of_mem _ hc
    · rcases List.mem_cons.mp hc with rfl | hc
      · exact List.mem_cons_self
      · exact List.mem_cons_of_mem _ (ih hc)

theorem mem_mergeList (hc : c ∈ l) (hf : c.free = false) : c ∈ mergeList l := by
  cases l with
  | nil => cases hc
  | cons b l => exact mem_mergeBlocks hc hf

theorem mergeBlocks_addr (hc : c ∈ mergeBlocks b l) : ∃ d ∈ b :: l, d.addr = c.addr := by
  induction l generalizing b with
  | nil => exact ⟨c, hc, rfl⟩
  | cons d l ih =>
    unfold mergeBlocks at hc
    split at hc
    · obtain ⟨e, he, ha⟩ := ih hc
      rcases List.mem_cons.mp he with rfl | he
      · exact ⟨b, List.mem_cons_self, ha⟩
      · exact ⟨e, List.mem_cons_of_mem _ (List.mem_cons_of_mem _ he), ha⟩
    · rcases List.mem_cons.mp hc with rfl | hc
      · exact ⟨c, List.mem_cons_self, rfl⟩
      · obtain ⟨e, he, ha⟩ := ih hc
        exact ⟨e, List.mem_cons_of_mem _ he, ha⟩

theorem mergeList_addr (hc : c ∈ mergeList l) : ∃ d ∈ l, d.addr = c.addr := by
  cases l with
  | nil => cases hc
  | cons b l => exact mergeBlocks_addr hc

end Merge

def reach (start e : ℕ) : ℕ := max start (e - 1)

section Placed
variable {size e e' start : ℕ} {l l' : List Block} {b c : Block}

theorem Placed.within (h : Placed size l e b l' e') (hw : Within start l (reach start e))
    (hs : start ≤ aligned e) : Within start l' (reach start e') := by
  cases h with
  | grow =>
    have he := aligned_ge e
    refine within_append.mpr ⟨_, hw, ?_, aligned_mod e, ?_⟩
    · change max start (e - 1) ≤ aligned e
      omega
    · change aligned e + sizeofBlockMeta + size ≤ max start (aligned e + sizeofBlockMeta + size + 1 - 1)
      omega
  | take => exact hw.replace rfl (Nat.le_refl _)
  | @cut pre post b _ n _ _ _ hmod hlo hhi =>
    obtain ⟨mid, h₁, hmid, hbmod, h₂⟩ := within_append.mp hw
    refine within_append.mpr ⟨mid, h₁, hmid, hbmod, hlo, hmod, ?_⟩
    rcases hhi with hstop | ⟨c, hc, hstop⟩
    · exact h₂.lo_le hstop
    · cases post with
      | nil => cases hc
      | cons d post =>
        cases hc
        exact ⟨hstop, h₂.2⟩

theorem Placed.start_le (h : Placed size l e b l' e') (hs : start ≤ aligned e) : start ≤ aligned e' := by
  cases h with
  | grow =>
    have he := aligned_ge (aligned e + sizeofBlockMeta + size + 1)
    omega
  | take => exact hs
  | cut => exact hs

theorem Placed.addr_of_grown (h : Placed size l e b l' e') (hne : e' ≠ e) : b.addr = aligned e := by
  cases h with
  | grow => rfl
  | take => exact absurd rfl hne
  | cut => exact absurd rfl hne

theorem Placed.coalesced (h : Placed size l e b l' e') (hc : Coalesced l) : Coalesced l' := by
  cases h with
  | grow =>
    refine List.isChain_append.mpr ⟨hc, List.isChain_singleton _, ?_⟩
    rintro x - y hy ⟨-, hf⟩
    cases hy
    cases hf
  | take =>
    obtain ⟨hpre, hpost, -⟩ := List.isChain_append.mp hc
    obtain ⟨-, hpost⟩ := List.isChain_cons.mp hpost
    refine List.isChain_append.mpr ⟨hpre, List.isChain_cons.mpr ⟨fun y _ hf => ?_, hpost⟩, ?_⟩
    · cases hf.1
    · rintro x - y hy ⟨-, hf⟩
      cases hy
      cases hf
  | cut n _ hb =>
    obtain ⟨hpre, hpost, -⟩ := List.isChain_append.mp hc
    obtain ⟨hnext, hpost⟩ := List.isChain_cons.mp hpost
    refine List.isChain_append.mpr ⟨hpre, List.isChain_cons.mpr ⟨?_, List.isChain_cons.mpr ⟨?_, hpost⟩⟩, ?_⟩
    · rintro y - ⟨hf, -⟩
      cases hf
    · exact fun y hy hf => hnext y hy ⟨hb.1, hf.2⟩
    · rintro x - y hy ⟨-, hf⟩
      cases hy
      cases hf

theorem Placed.inUse_eq (h : Placed size l e b l' e') : inUse l' = inUse l + (b.size + sizeofBlockMeta) := by
  cases h with
  | grow => rw [inUse_append, inUse_cons, inUse_nil, if_neg Bool.false_ne_true, Nat.add_zero]
  | take _ hb =>
    rw [inUse_append, inUse_append, inUse_cons, inUse_cons, if_neg Bool.false_ne_true, if_pos hb.1]
    omega
  | cut n _ hb hfree =>
    rw [inUse_append, inUse_append, inUse_cons, inUse_cons, inUse_cons, if_neg Bool.false_ne_true, if_pos hfree,
      if_pos hb.1]
    omega

theorem Placed.holds (h : Placed size l e b l' e') : b ∈ l' ∧ b.free = false ∧ size ≤ b.size := by
  cases h with
  | grow => exact ⟨by simp, rfl, Nat.le_refl _⟩
  | take _ hb => exact ⟨by simp, rfl, hb.2⟩
  | cut => exact ⟨by simp, rfl, Nat.le_refl _⟩

theorem Placed.keeps (h : Placed size l e b l' e') (hc : c ∈ l) (hf : c.free = false) : c ∈ l' := by
  cases h with
  | grow => exact List.mem_append_left _ hc
  | take _ hb =>
    rcases List.mem_append.mp hc with hc | hc
    · exact List.mem_append_left _ hc
    · rcases List.mem_cons.mp hc with rfl | hc
      · exact (hb.not_used hf).elim
      · exact List.mem_append_right _ (List.mem_cons_of_mem _ hc)
  | cut n _ hb =>
    rcases List.mem_append.mp hc with hc | hc
    · exact List.mem_append_left _ hc
    · rcases List.mem_cons.mp hc with rfl | hc
      · exact (hb.not_used hf).elim
      · exact List.mem_append_right _ (List.mem_cons_of_mem _ (List.mem_cons_of_mem _ hc))

theorem Placed.not_used (h : Placed size l e b l' e') (hw : Within start l (reach start e))
    (hs : start ≤ aligned e) (hc : c ∈ l) (hf : c.free = false) : c.addr ≠ b.addr := by
  intro he
  cases h with
  | grow =>
    have hstop := (hw.of_mem hc).2.2
    have hend := aligned_ge e
    unfold reach Block.stop sizeofBlockMeta at hstop
    dsimp only at he
    omega
  | @take pre post b _ _ hb =>
    obtain rfl := hw.eq_of_addr (c := b) hc (by simp) he
    exact hb.not_used hf
  | @cut pre post b _ n _ hb =>
    obtain rfl := hw.eq_of_addr (c := b) hc (by simp) he
    exact hb.not_used hf

end Placed

section Released
variable {a lo hi : ℕ} {l l' : List Block} {b c : Block}

theorem Released.within (h : Released a l l') (hw : Within lo l hi) : Within lo l' hi := by
  cases h with
  | release => exact mergeList_within (hw.replace rfl (Nat.le_refl _))

theorem Released.coalesced (h : Released a l l') : Coalesced l' := by
  cases h with
  | release => exact mergeList_coalesced

theorem Released.inUse_eq (h : Released a l l') (hw : Within lo l hi) (hb : b ∈ l) (ha : b.addr = a)
    (hf : b.free = false) : inUse l = inUse l' + (b.size + sizeofBlockMeta) := by
  cases h with
  | @release pre post d hd =>
    obtain rfl := hw.eq_of_addr hb (c := d) (by simp) (ha.trans hd.symm)
    rw [mergeList_inUse, inUse_append, inUse_append, inUse_cons, inUse_cons, if_pos rfl, if_neg (by simp [hf])]
    omega

theorem Released.keeps (h : Released a l l') (hc : c ∈ l) (hf : c.free = false) (hne : c.addr ≠ a) :
    c ∈ l' := by
  cases h with
  | release ha =>
    apply mem_mergeList _ hf
    rcases List.mem_append.mp hc with hc | hc
    · exact List.mem_append_left _ hc
    · rcases List.mem_cons.mp hc with rfl | hc
      · exact absurd ha hne
      · exact List.mem_append_right _ (List.mem_cons_of_mem _ hc)

theorem Released.addr (h : Released a l l') (hc : c ∈ l') : ∃ d ∈ l, d.addr = c.addr := by
  cases h with
  | @release pre post b ha =>
    obtain ⟨d, hd, he⟩ := mergeList_addr hc
    rcases List.mem_append.mp hd with hd | hd
    · exact ⟨d, List.mem_append_left _ hd, he⟩
    · rcases List.mem_cons.mp hd with rfl | hd
      · exact ⟨b, by simp, he⟩
      · exact ⟨d, List.mem_append_right _ (List.mem_cons_of_mem _ hd), he⟩

end Released

/-- The blocks `l` of a heap from `start` to `e`, with `allocated` bytes counted
and the allocations of `live` handed out. -/
structure Sound (start e : ℕ) (l : List Block) (allocated : ℕ) (live : List (ℕ × ℕ)) : Prop where
  within : Within start l (reach start e)
  start_le : start ≤ aligned e
  coalesced : Coalesced l
  counted : allocated = inUse l
  held : ∀ x ∈ live, Holds l x
  distinct : (live.map Prod.fst).Nodup

section Sound
variable {start e e' allocated size a : ℕ} {l l' : List Block} {b : Block} {live : List (ℕ × ℕ)}

theorem Sound.placed (hs : Sound start e l allocated live) (h : Placed size l e b l' e') :
    Sound start e' l' (allocated + (b.size + sizeofBlockMeta)) ((b.addr + sizeofBlockMeta, size) :: live) where
  within := h.within hs.within hs.start_le
  start_le := h.start_le hs.start_le
  coalesced := h.coalesced hs.coalesced
  counted := by rw [h.inUse_eq, hs.counted]
  held := by
    intro x hx
    rcases List.mem_cons.mp hx with rfl | hx
    · obtain ⟨hmem, hfree, hsize⟩ := h.holds
      exact ⟨b, hmem, hfree, rfl, hsize⟩
    · obtain ⟨c, hc, hfree, haddr, hsize⟩ := hs.held x hx
      exact ⟨c, h.keeps hc hfree, hfree, haddr, hsize⟩
  distinct := by
    refine List.nodup_cons.mpr ⟨fun hmem => ?_, hs.distinct⟩
    obtain ⟨x, hx, hxb⟩ := List.mem_map.mp hmem
    obtain ⟨c, hc, hfree, haddr, -⟩ := hs.held x hx
    exact h.not_used hs.within hs.start_le hc hfree (Nat.add_right_cancel (haddr.trans hxb))

theorem Sound.released (hs : Sound start e l allocated live) (h : Released a l l') (hb : b ∈ l)
    (ha : b.addr = a) (hf : b.free = false) :
    Sound start e l' (allocated - (b.size + sizeofBlockMeta)) (live.filter fun x => x.1 ≠ a + sizeofBlockMeta) where
  within := h.within hs.within
  start_le := hs.start_le
  coalesced := h.coalesced
  counted := by
    rw [hs.counted, h.inUse_eq hs.within hb ha hf]
    omega
  held := by
    intro x hx
    obtain ⟨hx, hne⟩ := List.mem_filter.mp hx
    obtain ⟨c, hc, hfree, haddr, hsize⟩ := hs.held x hx
    refine ⟨c, h.keeps hc hfree fun he => ?_, hfree, haddr, hsize⟩
    rw [← haddr, he] at hne
    simp at hne
  distinct := hs.distinct.sublist (List.Sublist.map _ List.filter_sublist)

end Sound

end Thorn.Heap

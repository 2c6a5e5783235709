import Thorn.FatImage

set_option autoImplicit false

namespace Thorn.FatImage
open Paths FatTypes LinkedChain

namespace Image
variable {I : Image}

theorem WellFormed.bs_pos (h : I.WellFormed) : 0 < I.bs := by
  have := h.epb
  simp only [bs, sizeofDirEntry]
  omega

theorem WellFormed.readable (h : I.WellFormed) {k : ℕ} (hk : I.Live k) : I.Readable (I.entry k) :=
  ⟨h.owns k hk, h.size k hk⟩

theorem count_le (hepb : 0 < I.epb) {p : ℕ} (hs : (I.chain p).length = I.blocksFor (I.entry p).len) :
    I.count p ≤ (I.chain p).length * I.epb := by
  have hbs : 0 < I.bs := Nat.mul_pos (by decide) hepb
  have hlen : (I.entry p).len ≤ (I.chain p).length * I.bs := by
    rw [← updiv_le_iff _ _ _ hbs, hs, blocksFor]
    omega
  refine Nat.div_le_of_le_mul ?_
  calc (I.entry p).len ≤ (I.chain p).length * I.bs := hlen
    _ = sizeofDirEntry * ((I.chain p).length * I.epb) := by
      rw [bs]
      ring

theorem Readable.slot_data (hepb : 0 < I.epb) {p k : ℕ} (hr : I.Readable (I.entry p)) (hk : k ∈ I.slots p) :
    I.IsData (k / I.epb) := by
  obtain ⟨i, hi, rfl⟩ := mem_slotsIn.mp hk
  have hcount : I.count p ≤ (I.chain p).length * I.epb := count_le hepb hr.size
  have hlt : i / I.epb < (I.chain p).length := (Nat.div_lt_iff_lt_mul hepb).mpr (by omega)
  exact hr.owns.data _ (slotAt_mem hepb _ i hlt)

theorem WellFormed.index_lt (h : I.WellFormed) {p i : ℕ} (hp : I.Live p) (hi : i < I.count p) :
    i / I.epb < (I.chain p).length := by
  have hE : 0 < I.epb := by
    have := h.epb
    omega
  have := count_le hE (h.size p hp)
  exact (Nat.div_lt_iff_lt_mul hE).mpr (by omega)

theorem WellFormed.epb_pos (h : I.WellFormed) : 0 < I.epb := by
  have := h.epb
  omega

theorem WellFormed.slot_mem (h : I.WellFormed) {p k : ℕ} (hp : I.Live p) (hk : k ∈ I.slots p) :
    k / I.epb ∈ I.chain p := by
  obtain ⟨i, hi, rfl⟩ := mem_slotsIn.mp hk
  exact slotAt_mem h.epb_pos _ _ (h.index_lt hp hi)

theorem WellFormed.slot_data (h : I.WellFormed) {p k : ℕ} (hp : I.Live p) (hk : k ∈ I.slots p) :
    I.IsData (k / I.epb) := (h.owns p hp).data _ (h.slot_mem hp hk)

theorem Child.mem_slots {p k : ℕ} (h : I.Child p k) : k ∈ I.slots p := List.mem_of_mem_drop h.2.1

theorem WellFormed.slot_parent (h : I.WellFormed) {p q k : ℕ} (hp : I.Live p) (hq : I.Live q)
    (hkp : k ∈ I.slots p) (hkq : k ∈ I.slots q) : p = q := by
  by_contra hne
  exact h.disjoint p q hp hq hne (h.slot_mem hp hkp) (h.slot_mem hq hkq)

theorem WellFormed.root_chain (h : I.WellFormed) (hl : 0 < (I.chain I.rootSlot).length) :
    (I.chain I.rootSlot)[0] = I.startBlock := by
  have hs := (h.owns _ .root).head hl
  rw [h.root_start] at hs
  exact_mod_cast hs.symm

theorem WellFormed.root_slotAt (h : I.WellFormed) {i : ℕ} (hi : i < I.epb) :
    I.slotAt (I.chain I.rootSlot) i = I.rootSlot + i := by
  have hl := (h.owns _ .root).length_pos
  rw [slotAt, Nat.div_eq_of_lt hi, Nat.mod_eq_of_lt hi, List.getD_eq_getElem _ _ hl,
    h.root_chain hl, rootSlot]

theorem WellFormed.copies_le (h : I.WellFormed) {p : ℕ} (hp : I.Live p)
    (hd : (I.entry p).isDirectory) : I.copies p ≤ I.count p := by
  unfold copies count
  split_ifs with hr
  · subst hr
    exact (Nat.le_div_iff_mul_le (by decide)).mpr h.root_len
  · obtain ⟨hpos, hdvd⟩ := h.directory p hp hd
    exact Nat.div_pos (Nat.le_of_dvd hpos hdvd) (by decide)

theorem WellFormed.copy_name (h : I.WellFormed) {p i : ℕ} (hp : I.Live p)
    (hd : (I.entry p).isDirectory) (hi : i < I.copies p) :
    (I.entry (I.slotAt (I.chain p) i)).name.toStr = dotName ∨
      (I.entry (I.slotAt (I.chain p) i)).name.toStr = dotDotName := by
  have he := h.epb
  unfold copies at hi
  split_ifs at hi with hr
  · subst hr
    rw [h.root_slotAt (by omega)]
    obtain rfl | rfl : i = 0 ∨ i = 1 := by omega
    · exact .inl h.dot
    · exact .inr h.root_dotdot
  · obtain rfl : i = 0 := by omega
    exact .inr (h.dotdot p hp hr hd)

theorem WellFormed.child_ne_root (h : I.WellFormed) {p k : ℕ} (hp : I.Live p) (hk : I.Child p k) :
    k ≠ I.rootSlot := by
  rintro rfl
  obtain ⟨i, hi, hc, hs⟩ := mem_slotsIn_drop.mp hk.2.1
  have hE := h.epb_pos
  have h0 := h.root_slotAt hE
  have hl := (h.owns _ .root).length_pos
  by_cases hpr : p = I.rootSlot
  · subst hpr
    have h2 : I.copies I.rootSlot = 2 := if_pos rfl
    have := slotAt_inj hE (h.owns _ .root).nodup (h.index_lt .root hc)
      (by rw [Nat.zero_div]; exact hl) (hs.trans h0.symm)
    omega
  · have hm : I.rootSlot / I.epb ∈ I.chain I.rootSlot := by
      have hq : I.rootSlot / I.epb = I.startBlock := Nat.mul_div_cancel _ hE
      rw [hq]
      exact h.root_chain hl ▸ List.getElem_mem hl
    exact h.disjoint p _ hp .root hpr (h.slot_mem hp hk.mem_slots) hm

theorem WellFormed.child_unique (h : I.WellFormed) {p q k : ℕ} (hp : I.Live p) (hq : I.Live q)
    (hkp : I.Child p k) (hkq : I.Child q k) : p = q :=
  h.slot_parent hp hq hkp.mem_slots hkq.mem_slots

theorem Live.parent {k : ℕ} (h : I.Live k) (hr : k ≠ I.rootSlot) : ∃ p, I.Live p ∧ I.Child p k := by
  cases h with
  | root => exact absurd rfl hr
  | child hp hk => exact ⟨_, hp, hk⟩

theorem WellFormed.live_data (h : I.WellFormed) {k : ℕ} (hk : I.Live k) : I.IsData (k / I.epb) := by
  cases hk with
  | root =>
    rw [rootSlot, Nat.mul_div_cancel _ h.epb_pos]
    exact ⟨Nat.lt_succ_self _, h.inside⟩
  | child hp hk => exact h.slot_data hp hk.mem_slots

theorem WellFormed.live_mem (h : I.WellFormed) {k : ℕ} (hk : I.Live k) :
    ∃ p, I.Live p ∧ (I.entry p).isDirectory ∧ k ∈ I.slots p := by
  by_cases hr : k = I.rootSlot
  · subst hr
    refine ⟨_, .root, h.root_directory, mem_slotsIn.mpr ⟨0, ?_, h.root_slotAt h.epb_pos⟩⟩
    have h2 := h.copies_le .root h.root_directory
    simp only [copies, ite_true] at h2
    change 2 ≤ I.count I.rootSlot at h2
    change 0 < I.count I.rootSlot
    omega
  · obtain ⟨p, hp, hc⟩ := hk.parent hr
    exact ⟨p, hp, hc.1, hc.mem_slots⟩

theorem WellFormed.live_apart (h : I.WellFormed) {k f : ℕ} (hk : I.Live k) (hf : I.Live f)
    (hd : (I.entry f).isDirectory = false) : k / I.epb ∉ I.chain f := by
  obtain ⟨p, hp, hdir, hs⟩ := h.live_mem hk
  intro hm
  have hpf : p ≠ f := by
    rintro rfl
    rw [hd] at hdir
    cases hdir
  exact h.disjoint p f hp hf hpf (h.slot_mem hp hs) hm

section Walks

theorem findSlot_some {p k : ℕ} {name : Str} (h : I.findSlot p name = some k) :
    k ∈ I.slots p ∧ (I.entry k).name.toStr = name ∧ I.free (I.entry k) = false := by
  refine ⟨List.mem_of_find?_eq_some h, ?_⟩
  simpa using List.find?_some h

theorem findSlot_child {p k : ℕ} {name : Str} (hw : I.Walkable p) (h : I.findSlot p name = some k)
    (hk : k ∈ (I.slots p).drop (I.copies p)) : I.Child p k :=
  ⟨(walkable_iff.mp hw).2, hk, (findSlot_some h).2.2⟩

theorem findSlot_congr {J : Image} {p : ℕ} {name : Str} (hs : J.slots p = I.slots p)
    (h : ∀ k ∈ I.slots p, ((J.entry k).name.toStr = name && !J.free (J.entry k)) =
      ((I.entry k).name.toStr = name && !I.free (I.entry k))) : J.findSlot p name = I.findSlot p name := by
  rw [findSlot, findSlot, hs]
  generalize I.slots p = l at h
  induction l with
  | nil => rfl
  | cons k l ih =>
    rw [List.find?_cons, List.find?_cons, h k (by simp), ih fun j hj => h j (by simp [hj])]

theorem WellFormed.walkReadable (h : I.WellFormed) {p : ℕ} {names : List Str} (hp : I.Live p)
    (ha : I.AvoidsCopies p names) : I.WalkReadable p names := by
  induction names generalizing p with
  | nil => exact trivial
  | cons name names ih =>
    intro hw
    refine ⟨h.readable hp, fun k hk => ?_⟩
    obtain ⟨hm, hrest⟩ := ha hw k hk
    exact ih (.child hp (findSlot_child hw hk hm)) hrest

theorem AvoidsCopies.dropLast {p : ℕ} {names : List Str} (ha : I.AvoidsCopies p names) :
    I.AvoidsCopies p names.dropLast := by
  induction names generalizing p with
  | nil => exact trivial
  | cons name names ih =>
    cases names with
    | nil => exact trivial
    | cons name' names => exact fun hw k hk => ⟨(ha hw k hk).1, ih (ha hw k hk).2⟩

theorem resolve_data (hepb : 0 < I.epb) {p k : ℕ} {names : List Str} (hp : I.IsData (p / I.epb))
    (h : I.WalkReadable p names) (hr : I.resolve p names = .ok k) : I.IsData (k / I.epb) := by
  induction names generalizing p with
  | nil =>
    cases hr
    exact hp
  | cons name names ih =>
    by_cases hw : I.Walkable p
    · cases hk' : I.findSlot p name with
      | none => simp [resolve, hw, hk'] at hr
      | some k' =>
        obtain ⟨hread, hrest⟩ := h hw
        have hk := hread.slot_data hepb (findSlot_some hk').1
        simp only [resolve, hw, hk', ite_true] at hr
        split_ifs at hr with hn hf
        · cases hr
          exact hk
        · exact ih hk (hrest k' hk') hr
    · simp [resolve, hw] at hr

theorem walkDirs_data (hepb : 0 < I.epb) {p k : ℕ} {names : List Str} (hp : I.IsData (p / I.epb))
    (h : I.WalkReadable p names) (hr : I.walkDirs p names = .ok k) : I.IsData (k / I.epb) := by
  induction names generalizing p with
  | nil =>
    cases hr
    exact hp
  | cons name names ih =>
    by_cases hw : I.Walkable p
    · cases hk' : I.findSlot p name with
      | none => simp [walkDirs, hw, hk'] at hr
      | some k' =>
        obtain ⟨hread, hrest⟩ := h hw
        have hk := hread.slot_data hepb (findSlot_some hk').1
        simp only [walkDirs, hw, hk', ite_true] at hr
        split_ifs at hr with hf
        exact ih hk (hrest k' hk') hr
    · simp [walkDirs, hw] at hr

theorem WalkReadable.dropLast {p : ℕ} {names : List Str} (h : I.WalkReadable p names) :
    I.WalkReadable p names.dropLast := by
  induction names generalizing p with
  | nil => exact trivial
  | cons name names ih =>
    cases names with
    | nil => exact trivial
    | cons name' names => exact fun hw => ⟨(h hw).1, fun k hk => ih ((h hw).2 k hk)⟩

theorem resolve_live {p k : ℕ} {names : List Str} (hp : I.Live p) (ha : I.AvoidsCopies p names)
    (hr : I.resolve p names = .ok k) : I.Live k := by
  induction names generalizing p with
  | nil =>
    cases hr
    exact hp
  | cons name names ih =>
    by_cases hw : I.Walkable p
    · cases hk' : I.findSlot p name with
      | none => simp [resolve, hw, hk'] at hr
      | some k' =>
        obtain ⟨hm, hrest⟩ := ha hw k' hk'
        have hl := Live.child hp (findSlot_child hw hk' hm)
        simp only [resolve, hw, hk', ite_true] at hr
        split_ifs at hr with hn hf
        · cases hr
          exact hl
        · exact ih hl hrest hr
    · simp [resolve, hw] at hr

theorem resolve_error {p : ℕ} {names : List Str} {status : ℤ} (hr : I.resolve p names = .error status) :
    status < 0 := by
  induction names generalizing p with
  | nil => cases hr
  | cons name names ih =>
    by_cases hw : I.Walkable p
    · cases hk' : I.findSlot p name with
      | none =>
        simp only [resolve, hw, hk', ite_true, Except.error.injEq] at hr
        rw [← hr]
        decide
      | some k' =>
        simp only [resolve, hw, hk', ite_true] at hr
        split_ifs at hr with hn hf
        · cases hr
          decide
        · exact ih hr
    · simp only [resolve, hw, Bool.false_eq_true, ite_false, Except.error.injEq] at hr
      rw [← hr]
      decide

theorem WellFormed.avoidsCopies (h : I.WellFormed) {p : ℕ} {names : List Str} (hp : I.Live p)
    (h₁ : dotName ∉ names) (h₂ : dotDotName ∉ names) : I.AvoidsCopies p names := by
  induction names generalizing p with
  | nil => exact trivial
  | cons name names ih =>
    intro hw k hk
    obtain ⟨hmem, hname, hfree⟩ := findSlot_some hk
    have hd := (walkable_iff.mp hw).2
    have hdrop : k ∈ (I.slots p).drop (I.copies p) := by
      obtain ⟨i, hi, hs⟩ := mem_slotsIn.mp hmem
      refine mem_slotsIn_drop.mpr ⟨i, ?_, hi, hs⟩
      by_contra hlt
      rcases h.copy_name hp hd (Nat.lt_of_not_le hlt) with hn | hn
      · rw [hs, hname] at hn
        exact h₁ (hn ▸ List.mem_cons_self)
      · rw [hs, hname] at hn
        exact h₂ (hn ▸ List.mem_cons_self)
    exact ⟨hdrop, ih (.child hp ⟨hd, hdrop, hfree⟩) (fun hm => h₁ (List.mem_cons_of_mem _ hm))
      (fun hm => h₂ (List.mem_cons_of_mem _ hm))⟩

end Walks

/-- A set of slots and a chain for each, from which an image is seen to be
well-formed: the slots are closed under the directory listings, each is
reached from the root, and the chains have the properties asked for. -/
structure Catalogue (I : Image) (L : ℕ → Prop) (ch : ℕ → List ℕ) : Prop where
  epb : 2 ≤ I.epb
  table : 4 * I.blockCount ≤ I.fatBlocks * I.bs
  inside : I.startBlock < I.blockCount
  small : I.blockCount * I.bs < 2 ^ 32
  reserved : ∀ b : ℕ, b ≤ I.fatBlocks → I.fat b = UNUSABLE
  root : L I.rootSlot
  closed : ∀ p, L p → (I.entry p).isDirectory → ∀ k ∈ (I.slotsIn (ch p) (I.count p)).drop (I.copies p),
    I.free (I.entry k) = false → L k
  reached : ∀ k, L k → I.Live k
  owns : ∀ k, L k → I.Owns (I.entry k) (ch k)
  size : ∀ k, L k → (ch k).length = I.blocksFor (I.entry k).len
  disjoint : ∀ k l, L k → L l → k ≠ l → List.Disjoint (ch k) (ch l)
  unowned : ∀ b, I.IsData b → (∀ k, L k → b ∉ ch k) → I.fat b = 0
  directory : ∀ k, L k → (I.entry k).isDirectory → 0 < (I.entry k).len ∧ sizeofDirEntry ∣ (I.entry k).len
  root_directory : (I.entry I.rootSlot).isDirectory
  root_start : (I.entry I.rootSlot).start = I.startBlock
  root_len : 2 * sizeofDirEntry ≤ (I.entry I.rootSlot).len
  dot : (I.entry I.rootSlot).name.toStr = dotName
  root_dotdot : (I.entry (I.rootSlot + 1)).name.toStr = dotDotName
  dotdot : ∀ k, L k → k ≠ I.rootSlot → (I.entry k).isDirectory →
    (I.entry (I.slotAt (ch k) 0)).name.toStr = dotDotName

namespace Catalogue
variable {L : ℕ → Prop} {ch : ℕ → List ℕ}

theorem chain_eq (h : Catalogue I L ch) {k : ℕ} (hk : L k) : I.chain k = ch k := (h.owns k hk).chainOf_eq

theorem of_live (h : Catalogue I L ch) {k : ℕ} (hk : I.Live k) : L k := by
  induction hk with
  | root => exact h.root
  | child hp hc ih =>
    obtain ⟨hd, hm, hf⟩ := hc
    rw [slots, h.chain_eq ih] at hm
    exact h.closed _ ih hd _ hm hf

theorem live_iff (h : Catalogue I L ch) (k : ℕ) : I.Live k ↔ L k := ⟨h.of_live, h.reached k⟩

theorem wellFormed (h : Catalogue I L ch) : I.WellFormed where
  epb := h.epb
  table := h.table
  inside := h.inside
  small := h.small
  reserved := h.reserved
  owns k hk := by
    rw [h.chain_eq (h.of_live hk)]
    exact h.owns k (h.of_live hk)
  size k hk := by
    rw [h.chain_eq (h.of_live hk)]
    exact h.size k (h.of_live hk)
  disjoint k l hk hl hne := by
    rw [h.chain_eq (h.of_live hk), h.chain_eq (h.of_live hl)]
    exact h.disjoint k l (h.of_live hk) (h.of_live hl) hne
  unowned b hb hno := h.unowned b hb fun k hk => by
    rw [← h.chain_eq hk]
    exact hno k (h.reached k hk)
  directory k hk := h.directory k (h.of_live hk)
  root_directory := h.root_directory
  root_start := h.root_start
  root_len := h.root_len
  dot := h.dot
  root_dotdot := h.root_dotdot
  dotdot k hk hr hd := by
    rw [h.chain_eq (h.of_live hk)]
    exact h.dotdot k (h.of_live hk) hr hd

end Catalogue

theorem WellFormed.catalogue (h : I.WellFormed) : Catalogue I I.Live I.chain where
  epb := h.epb
  table := h.table
  inside := h.inside
  small := h.small
  reserved := h.reserved
  root := .root
  closed _ hp hd _ hk hf := .child hp ⟨hd, hk, hf⟩
  reached _ hk := hk
  owns := h.owns
  size := h.size
  disjoint := h.disjoint
  unowned := h.unowned
  directory := h.directory
  root_directory := h.root_directory
  root_start := h.root_start
  root_len := h.root_len
  dot := h.dot
  root_dotdot := h.root_dotdot
  dotdot := h.dotdot

structure Agree (I J : Image) : Prop where
  epb : J.epb = I.epb
  blockCount : J.blockCount = I.blockCount
  fatBlocks : J.fatBlocks = I.fatBlocks
  fat : ∀ b : ℕ, b < I.blockCount → J.fat b = I.fat b
  entry : ∀ k, I.IsData (k / I.epb) → J.entry k = I.entry k
  free : ∀ k, I.IsData (k / I.epb) → J.free (J.entry k) = I.free (I.entry k)

theorem WellFormed.root_data (h : I.WellFormed) {i : ℕ} (hi : i < I.epb) :
    I.IsData ((I.rootSlot + i) / I.epb) := by
  have hq : (I.rootSlot + i) / I.epb = I.startBlock := by
    rw [rootSlot, Nat.add_comm, Nat.add_mul_div_right _ _ h.epb_pos, Nat.div_eq_of_lt hi, Nat.zero_add]
  rw [hq]
  exact ⟨Nat.lt_succ_self _, h.inside⟩

theorem Owns.slotAt_data (hepb : 0 < I.epb) {e : DirEntry} {l : List ℕ} (h : I.Owns e l) {i : ℕ}
    (hi : i / I.epb < l.length) : I.IsData (I.slotAt l i / I.epb) :=
  h.data _ (slotAt_mem hepb l i hi)

namespace Agree
variable {J : Image}

theorem isData (h : Agree I J) {b : ℕ} : J.IsData b ↔ I.IsData b := by
  simp only [IsData, h.fatBlocks, h.blockCount]

theorem owns (h : Agree I J) {e : DirEntry} {l : List ℕ} (ho : I.Owns e l) : J.Owns e l :=
  ho.congr rfl (fun b hb => h.fat b (ho.data b hb).2) fun b hb => h.isData.mpr (ho.data b hb)

theorem slotAt (h : Agree I J) : J.slotAt = I.slotAt := by
  funext l i
  simp only [Image.slotAt, h.epb]

theorem slotsIn (h : Agree I J) : J.slotsIn = I.slotsIn := by
  funext l n
  simp only [Image.slotsIn, h.slotAt]

theorem rootSlot (h : Agree I J) : J.rootSlot = I.rootSlot := by
  simp only [Image.rootSlot, Image.startBlock, h.epb, h.fatBlocks]

theorem copies (h : Agree I J) : J.copies = I.copies := by
  funext k
  simp only [Image.copies, h.rootSlot]

theorem bs (h : Agree I J) : J.bs = I.bs := by
  simp only [Image.bs, h.epb]

theorem live (h : Agree I J) (hw : I.WellFormed) {k : ℕ} (hk : I.Live k) : J.Live k := by
  induction hk with
  | root =>
    rw [← h.rootSlot]
    exact .root
  | @child p k hp hc ih =>
    have hep := h.entry p (hw.live_data hp)
    have hdata := hw.slot_data hp hc.mem_slots
    obtain ⟨hd, hm, hf⟩ := hc
    refine .child ih ⟨hep ▸ hd, ?_, (h.free k hdata).trans hf⟩
    have hch : J.chain p = I.chain p := by
      rw [Image.chain, hep]
      exact (h.owns (hw.owns p hp)).chainOf_eq
    rw [slots, hch, h.slotsIn, h.copies, count, hep]
    exact hm

theorem catalogue (h : Agree I J) (hw : I.WellFormed) : Catalogue J I.Live I.chain := by
  have hroot := h.entry I.rootSlot (hw.root_data hw.epb_pos)
  have hroot1 := h.entry (I.rootSlot + 1) (hw.root_data hw.epb)
  have hent := fun k hk => h.entry k (hw.live_data hk)
  exact {
    epb := h.epb ▸ hw.epb
    table := by
      rw [h.blockCount, h.fatBlocks, h.bs]
      exact hw.table
    inside := by
      rw [h.blockCount, startBlock, h.fatBlocks]
      exact hw.inside
    small := by
      rw [h.blockCount, h.bs]
      exact hw.small
    reserved := fun b hb => by
      rw [h.fatBlocks] at hb
      have hin := hw.inside
      simp only [startBlock] at hin
      rw [h.fat b (by omega), hw.reserved b hb]
    root := by
      rw [h.rootSlot]
      exact .root
    closed := fun p hp hd k hk hf => by
      rw [hent p hp] at hd
      rw [h.slotsIn, h.copies, count, hent p hp] at hk
      rw [h.free k (hw.slot_data hp (List.mem_of_mem_drop hk))] at hf
      exact .child hp ⟨hd, hk, hf⟩
    reached := fun k hk => h.live hw hk
    owns := fun k hk => by
      rw [hent k hk]
      exact h.owns (hw.owns k hk)
    size := fun k hk => by
      rw [hent k hk, blocksFor, h.bs]
      exact hw.size k hk
    disjoint := hw.disjoint
    unowned := fun b hb hno => by
      have hb' := h.isData.mp hb
      rw [h.fat b hb'.2]
      exact hw.unowned b hb' hno
    directory := fun k hk hd => by
      rw [hent k hk] at hd ⊢
      exact hw.directory k hk hd
    root_directory := by
      rw [h.rootSlot, hroot]
      exact hw.root_directory
    root_start := by
      rw [h.rootSlot, hroot, startBlock, h.fatBlocks]
      exact hw.root_start
    root_len := by
      rw [h.rootSlot, hroot]
      exact hw.root_len
    dot := by
      rw [h.rootSlot, hroot]
      exact hw.dot
    root_dotdot := by
      rw [h.rootSlot, hroot1]
      exact hw.root_dotdot
    dotdot := fun k hk hr hd => by
      rw [h.rootSlot] at hr
      rw [hent k hk] at hd
      have hdata := (hw.owns k hk).slotAt_data (i := 0) hw.epb_pos
        (by rw [Nat.zero_div]; exact (hw.owns k hk).length_pos)
      rw [h.slotAt, h.entry _ hdata]
      exact hw.dotdot k hk hr hd }

theorem wellFormed (h : Agree I J) (hw : I.WellFormed) : J.WellFormed := (h.catalogue hw).wellFormed

theorem live_iff (h : Agree I J) (hw : I.WellFormed) (k : ℕ) : J.Live k ↔ I.Live k :=
  (h.catalogue hw).live_iff k

theorem chain (h : Agree I J) (hw : I.WellFormed) {k : ℕ} (hk : I.Live k) : J.chain k = I.chain k := by
  rw [Image.chain, h.entry k (hw.live_data hk)]
  exact (h.owns (hw.owns k hk)).chainOf_eq

theorem slots (h : Agree I J) (hw : I.WellFormed) {p : ℕ} (hp : I.Live p) : J.slots p = I.slots p := by
  rw [Image.slots, h.slotsIn, count, h.entry p (hw.live_data hp), h.chain hw hp]
  rfl

theorem walkable (h : Agree I J) (hw : I.WellFormed) {p : ℕ} (hp : I.Live p) : J.Walkable p = I.Walkable p := by
  rw [Walkable, h.entry p (hw.live_data hp)]
  rfl

theorem findSlot (h : Agree I J) (hw : I.WellFormed) {p : ℕ} (hp : I.Live p) (name : Str) :
    J.findSlot p name = I.findSlot p name := by
  apply findSlot_congr (h.slots hw hp)
  intro k hk
  have hk' := hw.slot_data hp hk
  rw [h.free k hk', h.entry k hk']

theorem resolve (h : Agree I J) (hw : I.WellFormed) {p : ℕ} (hp : I.Live p) {names : List Str}
    (ha : I.AvoidsCopies p names) : J.resolve p names = I.resolve p names := by
  induction names generalizing p with
  | nil => rfl
  | cons name names ih =>
    rw [Image.resolve, Image.resolve, h.walkable hw hp, h.findSlot hw hp]
    by_cases hwalk : I.Walkable p
    · rw [if_pos hwalk, if_pos hwalk]
      cases hk : I.findSlot p name with
      | none => rfl
      | some k =>
        obtain ⟨hm, hrest⟩ := ha hwalk k hk
        have hl := Live.child hp (findSlot_child hwalk hk hm)
        simp only [h.entry k (hw.live_data hl), ih hl hrest]
    · rw [if_neg hwalk, if_neg hwalk]

theorem walkDirs (h : Agree I J) (hw : I.WellFormed) {p : ℕ} (hp : I.Live p) {names : List Str}
    (ha : I.AvoidsCopies p names) : J.walkDirs p names = I.walkDirs p names := by
  induction names generalizing p with
  | nil => rfl
  | cons name names ih =>
    rw [Image.walkDirs, Image.walkDirs, h.walkable hw hp, h.findSlot hw hp]
    by_cases hwalk : I.Walkable p
    · rw [if_pos hwalk, if_pos hwalk]
      cases hk : I.findSlot p name with
      | none => rfl
      | some k =>
        obtain ⟨hm, hrest⟩ := ha hwalk k hk
        have hl := Live.child hp (findSlot_child hwalk hk hm)
        simp only [h.entry k (hw.live_data hl), ih hl hrest]
    · rw [if_neg hwalk, if_neg hwalk]

end Agree

end Image

end Thorn.FatImage

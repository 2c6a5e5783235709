import Thorn.TreeEdits

set_option autoImplicit false

namespace Thorn.FatImage.Image
open Paths FatTypes LinkedChain
variable {I J : Image}

/-- The names of the entries that a directory lists behind its copies. -/
def namesIn (I : Image) (q : ℕ) : Set Str := {n | ∃ k, I.Child q k ∧ (I.entry k).name.toStr = n}

theorem Named.kept {names : List Str} {k : ℕ} (h : I.Named names k)
    (hr : J.rootSlot = I.rootSlot) {A : ℕ → Prop} (hA : ∀ p k, I.Live p → I.Child p k → A k → A p)
    (hstep : ∀ p k, I.Live p → I.Child p k → A k →
      J.Child p k ∧ (J.entry k).name.toStr = (I.entry k).name.toStr) (hk : A k) : J.Named names k := by
  induction h with
  | root =>
    rw [← hr]
    exact .root
  | @child names p k hp hc ih =>
    obtain ⟨hc', hname⟩ := hstep p k hp.live hc hk
    rw [← hname]
    exact .child (ih (hA p k hp.live hc hk)) hc'

/-- `J` is `I` with an entry in the free slot `j` of directory `q`, on the free block `f`. When it is a
directory it lists nothing but its `..`. -/
structure Added (I J : Image) (q j f : ℕ) : Prop where
  shape : I.SameShape J
  block : I.IsData f
  unused : I.fat f = 0
  fat : ∀ b < I.blockCount, J.fat b = if b = f then FINAL else I.fat b
  parent : I.Live q
  directory : (I.entry q).isDirectory
  slot : j ∈ (I.slots q).drop (I.copies q)
  vacant : I.free (I.entry j) = true
  entry : ∀ k, I.IsData (k / I.epb) → k ≠ j → k / I.epb ≠ f → J.entry k = I.entry k
  start : (J.entry j).start = f
  size : I.blocksFor (J.entry j).len = 1
  empty : (J.entry j).isDirectory → (J.entry j).len = sizeofDirEntry ∧
    (J.entry (f * I.epb)).name.toStr = dotDotName
  /-- No other free slot comes to life with the block. -/
  free : ∀ p, I.Live p → (I.entry p).isDirectory → ∀ k ∈ (I.slots p).drop (I.copies p), k ≠ j →
    I.free (I.entry k) → J.free (J.entry k)

namespace Added
variable {q j f : ℕ}

theorem apart (hw : I.WellFormed) (h : Added I J q j f) {k : ℕ} (hk : I.Live k) : f ∉ I.chain k := by
  intro hm
  exact (hw.owns k hk).fat_ne_zero f hm h.unused

theorem not_live (hw : I.WellFormed) (h : Added I J q j f) : ¬ I.Live j := by
  intro hj
  have hfree := h.vacant
  rw [(hw.owns j hj).not_free] at hfree
  cases hfree

theorem live_ne (hw : I.WellFormed) (h : Added I J q j f) {k : ℕ} (hk : I.Live k) : k ≠ j := by
  rintro rfl
  exact h.not_live hw hk

theorem entry_listed (hw : I.WellFormed) (h : Added I J q j f) {p k : ℕ} (hp : I.Live p) (hk : k ∈ I.slots p)
    (hne : k ≠ j) : J.entry k = I.entry k := by
  apply h.entry k (hw.slot_data hp hk) hne
  intro he
  exact h.apart hw hp (he ▸ hw.slot_mem hp hk)

theorem entry_live (hw : I.WellFormed) (h : Added I J q j f) {k : ℕ} (hk : I.Live k) :
    J.entry k = I.entry k := by
  obtain ⟨p, hp, -, hs⟩ := hw.live_mem hk
  exact h.entry_listed hw hp hs (h.live_ne hw hk)

theorem entry_copy (hw : I.WellFormed) (h : Added I J q j f) {p i : ℕ} (hp : I.Live p)
    (hdir : (I.entry p).isDirectory) (hi : i < I.copies p) :
    J.entry (I.slotAt (I.chain p) i) = I.entry (I.slotAt (I.chain p) i) :=
  h.entry_listed hw hp (hw.copy_mem hp hdir hi) (hw.copy_not_child hp hdir hi h.parent h.slot)

theorem fat_chain (hw : I.WellFormed) (h : Added I J q j f) {k : ℕ} (hk : I.Live k) {b : ℕ}
    (hb : b ∈ I.chain k) : J.fat b = I.fat b := by
  rw [h.fat b ((hw.owns k hk).data b hb).2, if_neg]
  rintro rfl
  exact h.apart hw hk hb

theorem owns_live (hw : I.WellFormed) (h : Added I J q j f) {k : ℕ} (hk : I.Live k) :
    J.Owns (J.entry k) (I.chain k) :=
  h.shape.owns (hw.owns k hk) (by rw [h.entry_live hw hk]) fun _ hb => h.fat_chain hw hk hb

theorem owns_new (h : Added I J q j f) : J.Owns (J.entry j) [f] := by
  have hfinal : J.fat f = FINAL := (h.fat f h.block.2).trans (if_pos rfl)
  refine ⟨⟨f, h.start, .last hfinal⟩, fun b hb => ?_⟩
  rw [List.mem_singleton.mp hb]
  exact h.shape.isData.mpr h.block

theorem slots_live (hw : I.WellFormed) (h : Added I J q j f) {p : ℕ} (hp : I.Live p) :
    J.slots p = I.slots p := by
  have hchain : J.chain p = I.chain p := (h.owns_live hw hp).chainOf_eq
  rw [Image.slots, Image.slots, hchain, h.shape.slotsIn, count, count, h.entry_live hw hp]

theorem reached (hw : I.WellFormed) (h : Added I J q j f) {k : ℕ} (hk : I.Live k) : J.Live k := by
  induction hk with
  | root =>
    rw [← h.shape.rootSlot]
    exact .root
  | @child p k hp hk ih =>
    refine .child ih ⟨?_, ?_, (h.owns_live hw (.child hp hk)).not_free⟩
    · rw [h.entry_live hw hp]
      exact hk.1
    · rw [h.slots_live hw hp, h.shape.copies]
      exact hk.2.1

theorem child_new (hw : I.WellFormed) (h : Added I J q j f) : J.Child q j := by
  refine ⟨?_, ?_, h.owns_new.not_free⟩
  · rw [h.entry_live hw h.parent]
    exact h.directory
  · rw [h.slots_live hw h.parent, h.shape.copies]
    exact h.slot

theorem ne_rootSlot (hw : I.WellFormed) (h : Added I J q j f) : j ≠ I.rootSlot :=
  (h.live_ne hw .root).symm

def chains (I : Image) (j f k : ℕ) : List ℕ := if k = j then [f] else I.chain k

theorem chains_new : chains I j f j = [f] := if_pos rfl

theorem chains_live (hw : I.WellFormed) (h : Added I J q j f) {k : ℕ} (hk : I.Live k) :
    chains I j f k = I.chain k := if_neg (h.live_ne hw hk)

theorem catalogue (hw : I.WellFormed) (h : Added I J q j f) :
    Catalogue J (fun k => I.Live k ∨ k = j) (chains I j f) where
  epb := h.shape.epb ▸ hw.epb
  table := by
    rw [h.shape.blockCount, h.shape.fatBlocks, h.shape.bs]
    exact hw.table
  inside := by
    rw [h.shape.blockCount, h.shape.startBlock]
    exact hw.inside
  small := by
    rw [h.shape.blockCount, h.shape.bs]
    exact hw.small
  reserved b hb := by
    rw [h.shape.fatBlocks] at hb
    rw [h.fat b (hw.block_lt hb), if_neg, hw.reserved b hb]
    rintro rfl
    exact absurd h.block.1 (not_lt.mpr hb)
  root := by
    rw [h.shape.rootSlot]
    exact .inl .root
  closed p hp hd k hk hfree := by
    rcases hp with hp | rfl
    · rw [h.chains_live hw hp, h.shape.slotsIn, h.shape.copies, count, h.entry_live hw hp] at hk
      rw [h.entry_live hw hp] at hd
      by_cases hkj : k = j
      · exact .inr hkj
      · refine .inl (.child hp ⟨hd, hk, ?_⟩)
        rw [← Bool.not_eq_true]
        intro hold
        rw [h.free p hp hd k hk hkj hold] at hfree
        cases hfree
    · -- The new entry lists its `..` alone.
      have hcount : J.count p = 1 := by rw [count, (h.empty hd).1, Nat.div_self (by decide)]
      have hcopies : J.copies p = 1 := by
        rw [h.shape.copies, Image.copies, if_neg (h.ne_rootSlot hw)]
      rw [hcount, hcopies] at hk
      cases hk
  reached k hk := by
    rcases hk with hk | rfl
    · exact h.reached hw hk
    · exact .child (h.reached hw h.parent) (h.child_new hw)
  owns k hk := by
    rcases hk with hk | rfl
    · rw [h.chains_live hw hk]
      exact h.owns_live hw hk
    · rw [chains_new]
      exact h.owns_new
  size k hk := by
    rcases hk with hk | rfl
    · rw [h.chains_live hw hk, h.entry_live hw hk, blocksFor, h.shape.bs]
      exact hw.size k hk
    · have hsize := h.size
      rw [blocksFor] at hsize
      rw [chains_new, blocksFor, h.shape.bs, hsize, List.length_singleton]
  disjoint k l hk hl hne := by
    rcases hk with hk | rfl <;> rcases hl with hl | rfl
    · rw [h.chains_live hw hk, h.chains_live hw hl]
      exact hw.disjoint k l hk hl hne
    · rw [h.chains_live hw hk, chains_new]
      exact List.disjoint_singleton.mpr (h.apart hw hk)
    · rw [h.chains_live hw hl, chains_new]
      exact List.singleton_disjoint.mpr (h.apart hw hl)
    · exact absurd rfl hne
  unowned b hb hno := by
    have hb' := h.shape.isData.mp hb
    have hbf : b ≠ f := by
      rintro rfl
      exact hno j (.inr rfl) (by rw [chains_new]; exact List.mem_singleton_self b)
    rw [h.fat b hb'.2, if_neg hbf]
    refine hw.unowned b hb' fun k hk => ?_
    rw [← h.chains_live hw hk]
    exact hno k (.inl hk)
  directory k hk hd := by
    rcases hk with hk | rfl
    · rw [h.entry_live hw hk] at hd ⊢
      exact hw.directory k hk hd
    · rw [(h.empty hd).1]
      exact ⟨by decide, dvd_rfl⟩
  root_directory := by
    rw [h.shape.rootSlot, h.entry_live hw .root]
    exact hw.root_directory
  root_start := by
    rw [h.shape.rootSlot, h.entry_live hw .root, h.shape.startBlock]
    exact hw.root_start
  root_len := by
    rw [h.shape.rootSlot, h.entry_live hw .root]
    exact hw.root_len
  dot := by
    rw [h.shape.rootSlot, h.entry_live hw .root]
    exact hw.dot
  root_dotdot := by
    have hsucc := h.entry_copy hw .root hw.root_directory (i := 1) (by rw [root_copies]; decide)
    rw [hw.root_succ] at hsucc
    rw [h.shape.rootSlot, hsucc]
    exact hw.root_dotdot
  dotdot k hk hr hd := by
    rw [h.shape.rootSlot] at hr
    rcases hk with hk | rfl
    · have hdir : (I.entry k).isDirectory := by
        rw [← h.entry_live hw hk]
        exact hd
      rw [h.chains_live hw hk, h.shape.slotAt, h.entry_copy hw hk hdir (copies_pos k)]
      exact hw.dotdot k hk hr hdir
    · have hslot : J.slotAt [f] 0 = f * I.epb := by
        rw [h.shape.slotAt, slotAt, Nat.zero_div, Nat.zero_mod, Nat.add_zero]
        rfl
      rw [chains_new, hslot]
      exact (h.empty hd).2

theorem wellFormed (hw : I.WellFormed) (h : Added I J q j f) : J.WellFormed := (h.catalogue hw).wellFormed

theorem live_iff (hw : I.WellFormed) (h : Added I J q j f) (k : ℕ) : J.Live k ↔ I.Live k ∨ k = j :=
  (h.catalogue hw).live_iff k

theorem child_iff (hw : I.WellFormed) (h : Added I J q j f) {p k : ℕ} (hp : I.Live p) :
    J.Child p k ↔ I.Child p k ∨ p = q ∧ k = j := by
  constructor
  · intro hk
    have hlive := (h.live_iff hw k).mp (.child (h.reached hw hp) hk)
    obtain ⟨hd, hs, -⟩ := hk
    rw [h.entry_live hw hp] at hd
    rw [h.slots_live hw hp, h.shape.copies] at hs
    rcases hlive with hlive | rfl
    · exact .inl ⟨hd, hs, (hw.owns k hlive).not_free⟩
    · exact .inr ⟨hw.slot_parent hp h.parent (List.mem_of_mem_drop hs) (List.mem_of_mem_drop h.slot), rfl⟩
  · rintro (hk | ⟨rfl, rfl⟩)
    · refine ⟨?_, ?_, (h.owns_live hw (.child hp hk)).not_free⟩
      · rw [h.entry_live hw hp]
        exact hk.1
      · rw [h.slots_live hw hp, h.shape.copies]
        exact hk.2.1
    · exact h.child_new hw

theorem new_leaf (hw : I.WellFormed) (h : Added I J q j f) (k : ℕ) : ¬ J.Child j k := by
  intro hk
  have hw' := h.wellFormed hw
  have hj := (h.live_iff hw j).mpr (.inr rfl)
  have hcount : J.count j = 1 := by rw [count, (h.empty hk.1).1, Nat.div_self (by decide)]
  have hcopies : J.copies j = 1 := by
    rw [h.shape.copies, Image.copies, if_neg (h.ne_rootSlot hw)]
  have hs := hk.2.1
  rw [slots, hcount, hcopies] at hs
  cases hs

theorem uniqueNames (hw : I.WellFormed) (h : Added I J q j f) (hu : I.UniqueNames)
    (hfresh : ∀ k, I.Child q k → (I.entry k).name.toStr ≠ (J.entry j).name.toStr) : J.UniqueNames := by
  intro p k l hp hk hl he
  rcases (h.live_iff hw p).mp hp with hp | rfl
  · rcases (h.child_iff hw hp).mp hk with hk | ⟨rfl, rfl⟩ <;> rcases (h.child_iff hw hp).mp hl with hl |
      ⟨hq, rfl⟩
    · rw [h.entry_live hw (.child hp hk), h.entry_live hw (.child hp hl)] at he
      exact hu p k l hp hk hl he
    · rw [h.entry_live hw (.child hp hk)] at he
      exact absurd he (hfresh k (hq ▸ hk))
    · rw [h.entry_live hw (.child hp hl)] at he
      exact absurd he.symm (hfresh l hl)
    · rfl
  · exact absurd hk (h.new_leaf hw k)

theorem tidy (hw : I.WellFormed) (h : Added I J q j f) (ht : I.Tidy) : J.Tidy := by
  intro p hp hd k hk hfree
  rcases (h.live_iff hw p).mp hp with hp | rfl
  · rw [h.entry_live hw hp] at hd
    rw [h.slots_live hw hp, h.shape.copies] at hk
    have hkj : k ≠ j := by
      rintro rfl
      rw [h.owns_new.not_free] at hfree
      cases hfree
    rw [h.entry_listed hw hp (List.mem_of_mem_drop hk) hkj]
    apply ht p hp hd k hk
    rw [← Bool.not_eq_false]
    intro hno
    have hl : I.Live k := .child hp ⟨hd, hk, hno⟩
    rw [(h.owns_live hw hl).not_free] at hfree
    cases hfree
  · have hcount : J.count p = 1 := by rw [count, (h.empty hd).1, Nat.div_self (by decide)]
    have hcopies : J.copies p = 1 := by
      rw [h.shape.copies, Image.copies, if_neg (h.ne_rootSlot hw)]
    rw [slots, hcount, hcopies] at hk
    cases hk

theorem named (hw : I.WellFormed) (h : Added I J q j f) {names : List Str} {k : ℕ} (hk : I.Named names k) :
    J.Named names k := by
  refine hk.kept h.shape.rootSlot (A := fun _ => True) (fun _ _ _ _ _ => trivial)
    (fun p k hp hk _ => ?_) trivial
  exact ⟨(h.child_iff hw hp).mpr (.inl hk), congrArg (·.name.toStr) (h.entry_live hw (.child hp hk))⟩

theorem namesIn (hw : I.WellFormed) (h : Added I J q j f) :
    J.namesIn q = insert (J.entry j).name.toStr (I.namesIn q) := by
  ext n
  constructor
  · rintro ⟨k, hk, rfl⟩
    rcases (h.child_iff hw h.parent).mp hk with hk | ⟨-, rfl⟩
    · exact .inr ⟨k, hk, congrArg (·.name.toStr) (h.entry_live hw (.child h.parent hk)).symm⟩
    · exact .inl rfl
  · rintro (rfl | ⟨k, hk, rfl⟩)
    · exact ⟨j, h.child_new hw, rfl⟩
    · exact ⟨k, (h.child_iff hw h.parent).mpr (.inl hk),
        congrArg (·.name.toStr) (h.entry_live hw (.child h.parent hk))⟩

end Added

namespace Grown
variable {p j : ℕ}

theorem named (hw : I.WellFormed) (h : Grown I J p j) (hp : I.Live p) (hd : (I.entry p).isDirectory)
    {names : List Str} {k : ℕ} (hk : I.Named names k) : J.Named names k := by
  refine hk.kept h.shape.rootSlot (A := fun _ => True) (fun _ _ _ _ _ => trivial)
    (fun q k hq hk _ => ?_) trivial
  exact ⟨(h.child_iff hw hp hd hq).mpr hk, congrArg Filename.toStr (h.alike hw hp hd (.child hq hk)).2.1⟩

theorem namesIn (hw : I.WellFormed) (h : Grown I J p j) (hp : I.Live p) (hd : (I.entry p).isDirectory) {q : ℕ}
    (hq : I.Live q) : J.namesIn q = I.namesIn q := by
  have hname : ∀ k, I.Child q k → (J.entry k).name.toStr = (I.entry k).name.toStr := fun k hk =>
    congrArg Filename.toStr (h.alike hw hp hd (.child hq hk)).2.1
  ext n
  constructor
  · rintro ⟨k, hk, rfl⟩
    have hk' := (h.child_iff hw hp hd hq).mp hk
    exact ⟨k, hk', (hname k hk').symm⟩
  · rintro ⟨k, hk, rfl⟩
    exact ⟨k, (h.child_iff hw hp hd hq).mpr hk, hname k hk⟩

end Grown

namespace Freed
variable {d : ℕ}

theorem named (hw : I.WellFormed) (h : Freed I J d) (hd : I.Live d) (hr : d ≠ I.rootSlot)
    (hleaf : ∀ k, ¬ I.Child d k) {names : List Str} {k : ℕ} (hk : I.Named names k) (hkd : k ≠ d) :
    J.Named names k := by
  refine hk.kept h.shape.rootSlot (A := (· ≠ d)) (fun p k _ hk _ => ?_) (fun p k hp hk hkd => ?_) hkd
  · rintro rfl
    exact hleaf k hk
  · have hpd : p ≠ d := by
      rintro rfl
      exact hleaf k hk
    exact ⟨(h.child_iff hw hd hr hleaf hp hpd).mpr ⟨hk, hkd⟩,
      congrArg (·.name.toStr) (h.entry_live hw (.child hp hk) hkd)⟩

theorem namesIn (hw : I.WellFormed) (h : Freed I J d) (hd : I.Live d) (hr : d ≠ I.rootSlot)
    (hleaf : ∀ k, ¬ I.Child d k) (hu : I.UniqueNames) {q : ℕ} (hq : I.Live q) (hk : I.Child q d) :
    J.namesIn q = I.namesIn q \ {(I.entry d).name.toStr} := by
  have hqd : q ≠ d := by
    rintro rfl
    exact hleaf q hk
  have hname : ∀ i, I.Child q i → i ≠ d → (J.entry i).name.toStr = (I.entry i).name.toStr := fun i hi hid =>
    congrArg (·.name.toStr) (h.entry_live hw (.child hq hi) hid)
  ext n
  constructor
  · rintro ⟨i, hi, rfl⟩
    obtain ⟨hi, hid⟩ := (h.child_iff hw hd hr hleaf hq hqd).mp hi
    rw [hname i hi hid]
    exact ⟨⟨i, hi, rfl⟩, fun he => hid (hu q i d hq hi hk he)⟩
  · rintro ⟨⟨i, hi, rfl⟩, hne⟩
    have hid : i ≠ d := by
      rintro rfl
      exact hne rfl
    exact ⟨i, (h.child_iff hw hd hr hleaf hq hqd).mpr ⟨hi, hid⟩, hname i hi hid⟩

end Freed

end Thorn.FatImage.Image

import Thorn.ParentCopies

set_option autoImplicit false

namespace Thorn.FatImage.Image
open Paths FatTypes LinkedChain
variable {I J : Image}

theorem Live.named {k : ℕ} (h : I.Live k) : ∃ names, I.Named names k := by
  induction h with
  | root => exact ⟨[], .root⟩
  | @child p k _ hk ih =>
    obtain ⟨names, hp⟩ := ih
    exact ⟨_, .child hp hk⟩

structure Recut (I J : Image) (k : ℕ) (c : List ℕ) : Prop where
  shape : I.SameShape J
  live : I.Live k
  file : (I.entry k).isDirectory = false
  still : (J.entry k).isDirectory = false
  entry : ∀ p i, I.Live p → (I.entry p).isDirectory → i ∈ I.slots p → i ≠ k → J.entry i = I.entry i
  fat : ∀ q, I.Live q → q ≠ k → ∀ b ∈ I.chain q, J.fat b = I.fat b
  reserved : ∀ b : ℕ, b ≤ I.fatBlocks → J.fat b = I.fat b
  owns : J.Owns (J.entry k) c
  size : c.length = I.blocksFor (J.entry k).len
  apart : ∀ q, I.Live q → q ≠ k → List.Disjoint (I.chain q) c
  unowned : ∀ b, I.IsData b → b ∉ c → (∀ q, I.Live q → q ≠ k → b ∉ I.chain q) → J.fat b = 0

namespace Recut
variable {k : ℕ} {c : List ℕ}

theorem ne_directory (h : Recut I J k c) {p : ℕ} (hd : (I.entry p).isDirectory) : p ≠ k := by
  rintro rfl
  rw [h.file] at hd
  cases hd

theorem entry_live (hw : I.WellFormed) (h : Recut I J k c) {q : ℕ} (hq : I.Live q) (hne : q ≠ k) :
    J.entry q = I.entry q := by
  obtain ⟨p, hp, hd, hs⟩ := hw.live_mem hq
  exact h.entry p q hp hd hs hne

theorem isDirectory_live (hw : I.WellFormed) (h : Recut I J k c) {q : ℕ} (hq : I.Live q) :
    (J.entry q).isDirectory = (I.entry q).isDirectory := by
  by_cases hqk : q = k
  · rw [hqk, h.still, h.file]
  · rw [h.entry_live hw hq hqk]

theorem owns_live (hw : I.WellFormed) (h : Recut I J k c) {q : ℕ} (hq : I.Live q) (hne : q ≠ k) :
    J.Owns (J.entry q) (I.chain q) :=
  h.shape.owns (hw.owns q hq) (by rw [h.entry_live hw hq hne]) fun b hb => h.fat q hq hne b hb

theorem slots_live (hw : I.WellFormed) (h : Recut I J k c) {p : ℕ} (hp : I.Live p)
    (hd : (I.entry p).isDirectory) : J.slots p = I.slots p := by
  have hne := h.ne_directory hd
  have hchain : J.chain p = I.chain p := (h.owns_live hw hp hne).chainOf_eq
  rw [Image.slots, Image.slots, hchain, h.shape.slotsIn, count, count, h.entry_live hw hp hne]

def chains (I : Image) (k : ℕ) (c : List ℕ) (q : ℕ) : List ℕ := if q = k then c else I.chain q

theorem chains_file : chains I k c k = c := if_pos rfl

theorem chains_live {q : ℕ} (hne : q ≠ k) : chains I k c q = I.chain q := if_neg hne

theorem owns_chains (hw : I.WellFormed) (h : Recut I J k c) {q : ℕ} (hq : I.Live q) :
    J.Owns (J.entry q) (chains I k c q) := by
  by_cases hqk : q = k
  · rw [hqk, chains_file]
    exact h.owns
  · rw [chains_live hqk]
    exact h.owns_live hw hq hqk

theorem reached (hw : I.WellFormed) (h : Recut I J k c) {q : ℕ} (hq : I.Live q) : J.Live q := by
  induction hq with
  | root =>
    rw [← h.shape.rootSlot]
    exact .root
  | @child p q hp hq ih =>
    refine .child ih ⟨?_, ?_, (h.owns_chains hw (.child hp hq)).not_free⟩
    · rw [h.isDirectory_live hw hp]
      exact hq.1
    · rw [h.slots_live hw hp hq.1, h.shape.copies]
      exact hq.2.1

theorem child_of_listed (h : Recut I J k c) (ht : I.Tidy) {p i : ℕ} (hp : I.Live p) (hd : (I.entry p).isDirectory)
    (hi : i ∈ (I.slots p).drop (I.copies p)) (hfree : J.free (J.entry i) = false) (hne : i ≠ k) : I.Child p i := by
  refine ⟨hd, hi, ?_⟩
  rw [← Bool.not_eq_true]
  intro hold
  have hstill : J.free (I.entry i) = true := by
    rw [Image.free, ht p hp hd i hi hold]
    rfl
  rw [h.entry p i hp hd (List.mem_of_mem_drop hi) hne, hstill] at hfree
  cases hfree

theorem entry_copy (hw : I.WellFormed) (h : Recut I J k c) {p i : ℕ} (hp : I.Live p)
    (hd : (I.entry p).isDirectory) (hi : i < I.copies p) :
    J.entry (I.slotAt (I.chain p) i) = I.entry (I.slotAt (I.chain p) i) := by
  refine h.entry p _ hp hd (hw.copy_mem hp hd hi) ?_
  cases h.live with
  | root => exact fun _ => h.ne_directory hw.root_directory rfl
  | child hq hk => exact hw.copy_not_child hp hd hi hq hk.2.1

theorem catalogue (hw : I.WellFormed) (ht : I.Tidy) (h : Recut I J k c) : Catalogue J I.Live (chains I k c) where
  epb := h.shape.epb ▸ hw.epb
  table := by
    rw [h.shape.blockCount, h.shape.fatBlocks, h.shape.bs]
    exact hw.table
  inside := by
    rw [h.shape.blockCount, h.shape.startBlock]
    exact hw.inside
  small := by
    rw [h.shape.blockCount, h.shape.bs]
    exact hw.small
  reserved b hb := by
    rw [h.shape.fatBlocks] at hb
    rw [h.reserved b hb, hw.reserved b hb]
  root := by
    rw [h.shape.rootSlot]
    exact .root
  closed p hp hd i hi hfree := by
    rw [h.isDirectory_live hw hp] at hd
    have hne := h.ne_directory hd
    rw [chains_live hne, h.shape.slotsIn, h.shape.copies, count, h.entry_live hw hp hne] at hi
    by_cases hik : i = k
    · rw [hik]
      exact h.live
    · exact .child hp (h.child_of_listed ht hp hd hi hfree hik)
  reached _ hq := h.reached hw hq
  owns _ hq := h.owns_chains hw hq
  size q hq := by
    by_cases hqk : q = k
    · rw [hqk, chains_file, blocksFor, h.shape.bs]
      exact h.size
    · rw [chains_live hqk, h.entry_live hw hq hqk, blocksFor, h.shape.bs]
      exact hw.size q hq
  disjoint q l hq hl hne := by
    by_cases hqk : q = k
    · have hlk : l ≠ k := fun he => hne (hqk.trans he.symm)
      rw [hqk, chains_file, chains_live hlk]
      exact (h.apart l hl hlk).symm
    · rw [chains_live hqk]
      by_cases hlk : l = k
      · rw [hlk, chains_file]
        exact h.apart q hq hqk
      · rw [chains_live hlk]
        exact hw.disjoint q l hq hl hne
  unowned b hb hno := by
    refine h.unowned b (h.shape.isData.mp hb) ?_ fun q hq hne => ?_
    · have hk := hno k h.live
      rwa [chains_file] at hk
    · have hq' := hno q hq
      rwa [chains_live hne] at hq'
  directory q hq hd := by
    rw [h.isDirectory_live hw hq] at hd
    rw [h.entry_live hw hq (h.ne_directory hd)]
    exact hw.directory q hq hd
  root_directory := by
    rw [h.shape.rootSlot, h.isDirectory_live hw .root]
    exact hw.root_directory
  root_start := by
    rw [h.shape.rootSlot, h.entry_live hw .root (h.ne_directory hw.root_directory), h.shape.startBlock]
    exact hw.root_start
  root_len := by
    rw [h.shape.rootSlot, h.entry_live hw .root (h.ne_directory hw.root_directory)]
    exact hw.root_len
  dot := by
    rw [h.shape.rootSlot, h.entry_live hw .root (h.ne_directory hw.root_directory)]
    exact hw.dot
  root_dotdot := by
    have hsucc := h.entry_copy hw .root hw.root_directory (i := 1) (by rw [root_copies]; decide)
    rw [hw.root_succ] at hsucc
    rw [h.shape.rootSlot, hsucc]
    exact hw.root_dotdot
  dotdot q hq hr hd := by
    rw [h.shape.rootSlot] at hr
    rw [h.isDirectory_live hw hq] at hd
    rw [chains_live (h.ne_directory hd), h.shape.slotAt, h.entry_copy hw hq hd (copies_pos q)]
    exact hw.dotdot q hq hr hd

theorem wellFormed (hw : I.WellFormed) (ht : I.Tidy) (h : Recut I J k c) : J.WellFormed :=
  (h.catalogue hw ht).wellFormed

theorem live_iff (hw : I.WellFormed) (ht : I.Tidy) (h : Recut I J k c) (q : ℕ) : J.Live q ↔ I.Live q :=
  (h.catalogue hw ht).live_iff q

theorem chain (hw : I.WellFormed) (h : Recut I J k c) {q : ℕ} (hq : I.Live q) : J.chain q = chains I k c q :=
  (h.owns_chains hw hq).chainOf_eq

theorem tidy (hw : I.WellFormed) (ht : I.Tidy) (h : Recut I J k c) : J.Tidy := by
  intro p hp hd i hi hfree
  have hp' := (h.live_iff hw ht p).mp hp
  rw [h.isDirectory_live hw hp'] at hd
  rw [h.slots_live hw hp' hd, h.shape.copies] at hi
  have hik : i ≠ k := by
    rintro rfl
    rw [h.owns.not_free] at hfree
    cases hfree
  have hsame := h.entry p i hp' hd (List.mem_of_mem_drop hi) hik
  rw [hsame]
  refine ht p hp' hd i hi ?_
  by_contra hold
  have hchild : I.Child p i := ⟨hd, hi, Bool.eq_false_iff.mpr hold⟩
  have howns := h.owns_live hw (.child hp' hchild) hik
  rw [howns.not_free] at hfree
  cases hfree

theorem child_iff (hw : I.WellFormed) (ht : I.Tidy) (h : Recut I J k c) {p q : ℕ} (hp : I.Live p) :
    J.Child p q ↔ I.Child p q := by
  rw [hw.child_iff hp, (h.wellFormed hw ht).child_iff (h.reached hw hp), h.isDirectory_live hw hp, h.shape.copies,
    h.live_iff hw ht]
  exact and_congr_right fun hd => by rw [h.slots_live hw hp hd]

theorem named_iff (hw : I.WellFormed) (ht : I.Tidy) (h : Recut I J k c) (hname : (J.entry k).name = (I.entry k).name)
    {names : List Str} {q : ℕ} : J.Named names q ↔ I.Named names q := by
  have hsame : ∀ q, I.Live q → (J.entry q).name = (I.entry q).name := fun q hq => by
    by_cases hqk : q = k
    · rw [hqk, hname]
    · rw [h.entry_live hw hq hqk]
  have hkept : ∀ {names q}, I.Named names q → J.Named names q := fun hq =>
    hq.kept (A := fun _ => True) h.shape.rootSlot (fun _ _ _ _ _ => trivial)
      (fun p q hp hc _ => ⟨(h.child_iff hw ht hp).mpr hc, by rw [hsame q (.child hp hc)]⟩) trivial
  refine ⟨fun hq => ?_, hkept⟩
  obtain ⟨names', hq'⟩ := ((h.live_iff hw ht q).mp hq.live).named
  rwa [hq.unique (h.wellFormed hw ht) (hkept hq')]

theorem uniqueNames (hw : I.WellFormed) (ht : I.Tidy) (h : Recut I J k c)
    (hname : (J.entry k).name = (I.entry k).name) (hu : I.UniqueNames) : J.UniqueNames := by
  have hsame : ∀ q, I.Live q → (J.entry q).name = (I.entry q).name := fun q hq => by
    by_cases hqk : q = k
    · rw [hqk, hname]
    · rw [h.entry_live hw hq hqk]
  intro p a b hp ha hb he
  have hp' := (h.live_iff hw ht p).mp hp
  have ha' := (h.child_iff hw ht hp').mp ha
  have hb' := (h.child_iff hw ht hp').mp hb
  rw [hsame a (.child hp' ha'), hsame b (.child hp' hb')] at he
  exact hu p a b hp' ha' hb' he

theorem copied (hw : I.WellFormed) (ht : I.Tidy) (h : Recut I J k c) (hc : I.Copied) : J.Copied where
  root := by
    have hsucc := h.entry_copy hw .root hw.root_directory (i := 1) (by rw [root_copies]; decide)
    rw [hw.root_succ] at hsucc
    rw [h.shape.rootSlot, hsucc, h.entry_live hw .root (h.ne_directory hw.root_directory)]
    exact hc.root
  above o d ho hd hdir := by
    have ho' := (h.live_iff hw ht o).mp ho
    have hd' := (h.child_iff hw ht ho').mp hd
    have hlive : I.Live d := .child ho' hd'
    have hdir' : (I.entry d).isDirectory := h.isDirectory_live hw hlive ▸ hdir
    have hchain : J.chain d = I.chain d := (h.owns_live hw hlive (h.ne_directory hdir')).chainOf_eq
    rw [dotdotSlot_congr h.shape hchain, dotdotSlot, h.entry_copy hw hlive hdir' (copies_pred d),
      h.entry_live hw ho' (h.ne_directory hd'.1)]
    exact hc.above o d ho' hd' hdir'

end Recut

end Thorn.FatImage.Image

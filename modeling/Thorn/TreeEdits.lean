import Thorn.TreeNames

set_option autoImplicit false

namespace Thorn.FatImage.Image
open Paths FatTypes LinkedChain
variable {I J : Image}

structure SameShape (I J : Image) : Prop where
  epb : J.epb = I.epb
  blockCount : J.blockCount = I.blockCount
  fatBlocks : J.fatBlocks = I.fatBlocks

namespace SameShape

theorem bs (h : I.SameShape J) : J.bs = I.bs := congrArg (sizeofDirEntry * ·) h.epb

theorem startBlock (h : I.SameShape J) : J.startBlock = I.startBlock := congrArg (· + 1) h.fatBlocks

theorem rootSlot (h : I.SameShape J) : J.rootSlot = I.rootSlot := by
  rw [Image.rootSlot, Image.rootSlot, h.startBlock, h.epb]

theorem isData (h : I.SameShape J) {b : ℕ} : J.IsData b ↔ I.IsData b := by
  rw [IsData, IsData, h.fatBlocks, h.blockCount]

theorem slotAt (h : I.SameShape J) : J.slotAt = I.slotAt := by
  funext l i
  rw [Image.slotAt, Image.slotAt, h.epb]

theorem slotsIn (h : I.SameShape J) : J.slotsIn = I.slotsIn := by
  funext l n
  rw [Image.slotsIn, Image.slotsIn, h.slotAt]

theorem copies (h : I.SameShape J) : J.copies = I.copies := by
  funext k
  rw [Image.copies, Image.copies, h.rootSlot]

end SameShape

/-- Every live entry of `J`, in the slots `L`, stands for a live entry of `I`, the root for itself: it has the
chain of its origin, and its length, or it is a directory with room for one more slot and has that. -/
structure Rearranged (I J : Image) (L : ℕ → Prop) (origin : ℕ → ℕ) : Prop where
  shape : I.SameShape J
  live : ∀ i, L i → I.Live (origin i)
  apart : ∀ i l, L i → L l → origin i = origin l → i = l
  root : L I.rootSlot
  root_origin : origin I.rootSlot = I.rootSlot
  start : ∀ i, L i → (J.entry i).start = (I.entry (origin i)).start
  directory : ∀ i, L i → (J.entry i).isDirectory = (I.entry (origin i)).isDirectory
  len : ∀ i, L i → (J.entry i).len = (I.entry (origin i)).len ∨
    (I.entry (origin i)).isDirectory ∧ ¬ I.bs ∣ (I.entry (origin i)).len ∧
      (J.entry i).len = (I.entry (origin i)).len + sizeofDirEntry
  reserved : ∀ b : ℕ, b ≤ I.fatBlocks → J.fat b = I.fat b
  fat : ∀ i, L i → ∀ b ∈ I.chain (origin i), J.fat b = I.fat b
  unowned : ∀ b, I.IsData b → (∀ i, L i → b ∉ I.chain (origin i)) → J.fat b = 0
  dot : (J.entry I.rootSlot).name = (I.entry I.rootSlot).name
  root_dotdot : (J.entry (I.rootSlot + 1)).name.toStr = dotDotName
  dotdot : ∀ i, L i → i ≠ I.rootSlot → (I.entry (origin i)).isDirectory →
    (J.entry (I.slotAt (I.chain (origin i)) 0)).name.toStr = dotDotName
  closed : ∀ p, L p → (I.entry (origin p)).isDirectory →
    ∀ k ∈ (I.slotsIn (I.chain (origin p)) (J.count p)).drop (I.copies p), J.free (J.entry k) = false → L k
  reached : ∀ k, L k → J.Live k

theorem WellFormed.room (h : I.WellFormed) {p : ℕ} (hp : I.Live p) (hd : (I.entry p).isDirectory)
    (hroom : ¬ I.bs ∣ (I.entry p).len) :
    I.blocksFor ((I.entry p).len + sizeofDirEntry) = I.blocksFor (I.entry p).len := by
  obtain ⟨hpos, hdvd⟩ := h.directory p hp hd
  have hbs := h.bs_pos
  have hle : updiv (I.entry p).len I.bs ≤ updiv ((I.entry p).len + sizeofDirEntry) I.bs := by
    rw [updiv_le_iff _ _ _ hbs]
    have := (updiv_le_iff ((I.entry p).len + sizeofDirEntry) I.bs _ hbs).mp le_rfl
    omega
  have hge : updiv ((I.entry p).len + sizeofDirEntry) I.bs ≤ updiv (I.entry p).len I.bs := by
    have hfit := (updiv_le_iff (I.entry p).len I.bs _ hbs).mp le_rfl
    rw [updiv_le_iff _ _ _ hbs]
    have hblocks : sizeofDirEntry ∣ updiv (I.entry p).len I.bs * I.bs := (Dvd.intro _ rfl).mul_left _
    have hne : (I.entry p).len ≠ updiv (I.entry p).len I.bs * I.bs :=
      fun he => hroom (he ▸ Dvd.intro_left _ rfl)
    obtain ⟨m, hm⟩ := hdvd
    obtain ⟨n, hn⟩ := hblocks
    rw [hn] at hfit hne ⊢
    rw [hm] at hfit hne ⊢
    have hs : 0 < sizeofDirEntry := by decide
    have hlt : m < n := by
      by_contra hnot
      exact hne (le_antisymm hfit (Nat.mul_le_mul_left _ (Nat.le_of_not_lt hnot)))
    calc sizeofDirEntry * m + sizeofDirEntry = sizeofDirEntry * (m + 1) := by ring
      _ ≤ sizeofDirEntry * n := Nat.mul_le_mul_left _ hlt
  rw [blocksFor, blocksFor, le_antisymm hge hle]

namespace Rearranged
variable {L : ℕ → Prop} {origin : ℕ → ℕ}

theorem catalogue (hw : I.WellFormed) (h : Rearranged I J L origin) :
    Catalogue J L fun i => I.chain (origin i) where
  epb := h.shape.epb ▸ hw.epb
  table := by
    rw [h.shape.blockCount, h.shape.fatBlocks, h.shape.bs]
    exact hw.table
  inside := by
    rw [h.shape.blockCount, h.shape.startBlock]
    exact hw.inside
  small := by
    rw [h.shape.blockCount, h.shape.bs]
    exact hw.small
  reserved b hb := by
    rw [h.shape.fatBlocks] at hb
    rw [h.reserved b hb, hw.reserved b hb]
  root := by
    rw [h.shape.rootSlot]
    exact h.root
  closed p hp hd k hk hf := by
    rw [h.shape.slotsIn, h.shape.copies] at hk
    rw [h.directory p hp] at hd
    exact h.closed p hp hd k hk hf
  reached := h.reached
  owns k hk := (hw.owns _ (h.live k hk)).congr (h.start k hk) (h.fat k hk) fun b hb =>
    h.shape.isData.mpr ((hw.owns _ (h.live k hk)).data b hb)
  size k hk := by
    rw [hw.size _ (h.live k hk), blocksFor, blocksFor, h.shape.bs]
    rcases h.len k hk with hl | ⟨hd, hroom, hl⟩
    · rw [hl]
    · rw [hl]
      exact (hw.room (h.live k hk) hd hroom).symm
  disjoint k l hk hl hne := hw.disjoint _ _ (h.live k hk) (h.live l hl) fun he => hne (h.apart k l hk hl he)
  unowned b hb hno := h.unowned b (h.shape.isData.mp hb) hno
  directory k hk hd := by
    rw [h.directory k hk] at hd
    obtain ⟨hpos, hdvd⟩ := hw.directory _ (h.live k hk) hd
    rcases h.len k hk with hl | ⟨-, -, hl⟩
    · rw [hl]
      exact ⟨hpos, hdvd⟩
    · rw [hl]
      exact ⟨by omega, hdvd.add dvd_rfl⟩
  root_directory := by
    rw [h.shape.rootSlot, h.directory _ h.root, h.root_origin]
    exact hw.root_directory
  root_start := by
    rw [h.shape.rootSlot, h.start _ h.root, h.root_origin, h.shape.startBlock]
    exact hw.root_start
  root_len := by
    have hl := hw.root_len
    rw [h.shape.rootSlot]
    rcases h.len _ h.root with hl' | ⟨-, -, hl'⟩
    · rw [hl', h.root_origin]
      exact hl
    · rw [hl', h.root_origin]
      omega
  dot := by
    rw [h.shape.rootSlot, h.dot]
    exact hw.dot
  root_dotdot := by
    rw [h.shape.rootSlot]
    exact h.root_dotdot
  dotdot k hk hr hd := by
    rw [h.shape.rootSlot] at hr
    rw [h.directory k hk] at hd
    rw [h.shape.slotAt]
    exact h.dotdot k hk hr hd

theorem wellFormed (hw : I.WellFormed) (h : Rearranged I J L origin) :
    J.WellFormed := (h.catalogue hw).wellFormed

theorem live_iff (hw : I.WellFormed) (h : Rearranged I J L origin) (k : ℕ) : J.Live k ↔ L k :=
  (h.catalogue hw).live_iff k

theorem chain (hw : I.WellFormed) (h : Rearranged I J L origin) {k : ℕ} (hk : L k) :
    J.chain k = I.chain (origin k) :=
  (h.catalogue hw).chain_eq hk

theorem slots (hw : I.WellFormed) (h : Rearranged I J L origin) {p : ℕ} (hp : L p)
    (hlen : (J.entry p).len = (I.entry (origin p)).len) : J.slots p = I.slots (origin p) := by
  rw [Image.slots, h.chain hw hp, h.shape.slotsIn, count, hlen]
  rfl

end Rearranged

/-- The entry in slot `k` does not have these names, nor lies above the entry that has. -/
def Clear (I : Image) (k : ℕ) (names : List Str) : Prop := ∀ pre, pre <+: names → ¬ I.Named pre k

structure Freed (I J : Image) (d : ℕ) : Prop where
  shape : I.SameShape J
  fat : ∀ b < I.blockCount, J.fat b = if b ∈ I.chain d then 0 else I.fat b
  entry : ∀ k, I.IsData (k / I.epb) → k ≠ d → J.entry k = I.entry k
  gone : (J.entry d).start = 0
  free : ∀ p, I.Live p → (I.entry p).isDirectory → ∀ k ∈ (I.slots p).drop (I.copies p), k ≠ d →
    I.free (I.entry k) → J.free (J.entry k)

theorem WellFormed.copy_not_child (h : I.WellFormed) {p q i k : ℕ} (hp : I.Live p)
    (hd : (I.entry p).isDirectory)
    (hi : i < I.copies p) (hq : I.Live q) (hk : k ∈ (I.slots q).drop (I.copies q)) :
    I.slotAt (I.chain p) i ≠ k := by
  rintro rfl
  have hcount := h.copies_le hp hd
  obtain rfl := h.slot_parent hp hq (mem_slotsIn.mpr ⟨i, by omega, rfl⟩) (List.mem_of_mem_drop hk)
  obtain ⟨j, hj, hlt, hs⟩ := mem_slotsIn_drop.mp hk
  have := slotAt_inj h.epb_pos (h.owns p hp).nodup (h.index_lt hp hlt) (h.index_lt hp (by omega)) hs
  omega

theorem WellFormed.copy_mem (h : I.WellFormed) {p i : ℕ} (hp : I.Live p) (hd : (I.entry p).isDirectory)
    (hi : i < I.copies p) : I.slotAt (I.chain p) i ∈ I.slots p :=
  mem_slotsIn.mpr ⟨i, hi.trans_le (h.copies_le hp hd), rfl⟩

theorem SameShape.owns (h : I.SameShape J) {e e' : DirEntry} {l : List ℕ} (ho : I.Owns e l)
    (hs : e'.start = e.start) (hf : ∀ b ∈ l, J.fat b = I.fat b) : J.Owns e' l :=
  ho.congr hs hf fun b hb => h.isData.mpr (ho.data b hb)

theorem WellFormed.block_lt (h : I.WellFormed) {b : ℕ} (hb : b ≤ I.fatBlocks) : b < I.blockCount := by
  have hin := h.inside
  simp only [startBlock] at hin
  omega

theorem WellFormed.root_succ (h : I.WellFormed) : I.slotAt (I.chain I.rootSlot) 1 = I.rootSlot + 1 :=
  h.root_slotAt h.epb

theorem root_copies : I.copies I.rootSlot = 2 := if_pos rfl

theorem copies_pos (p : ℕ) : 0 < I.copies p := by
  unfold copies
  split_ifs <;> decide

theorem WellFormed.root_succ_not_child (h : I.WellFormed) {q k : ℕ} (hq : I.Live q)
    (hk : k ∈ (I.slots q).drop (I.copies q)) : k ≠ I.rootSlot + 1 := by
  have hne := h.copy_not_child (i := 1) .root h.root_directory (by rw [root_copies]; decide) hq hk
  rw [h.root_succ] at hne
  exact hne.symm

theorem WellFormed.root_not_child (h : I.WellFormed) {q k : ℕ} (hq : I.Live q)
    (hk : k ∈ (I.slots q).drop (I.copies q)) : k ≠ I.rootSlot := by
  have hne := h.copy_not_child (i := 0) .root h.root_directory (copies_pos _) hq hk
  rw [h.root_slotAt h.epb_pos] at hne
  exact hne.symm

theorem WellFormed.first_data (h : I.WellFormed) {p : ℕ} (hp : I.Live p) :
    I.IsData (I.slotAt (I.chain p) 0 / I.epb) :=
  (h.owns p hp).slotAt_data h.epb_pos (by rw [Nat.zero_div]; exact (h.owns p hp).length_pos)

namespace Freed
variable {d : ℕ}

theorem entry_copy (hw : I.WellFormed) (h : Freed I J d) (hd : I.Live d) (hr : d ≠ I.rootSlot) {p i : ℕ}
    (hp : I.Live p) (hdir : (I.entry p).isDirectory) (hi : i < I.copies p) :
    J.entry (I.slotAt (I.chain p) i) = I.entry (I.slotAt (I.chain p) i) := by
  obtain ⟨q, hq, hc⟩ := hd.parent hr
  exact h.entry _ (hw.slot_data hp (hw.copy_mem hp hdir hi)) (hw.copy_not_child hp hdir hi hq hc.2.1)

theorem rearranged (hw : I.WellFormed) (h : Freed I J d) (hd : I.Live d) (hr : d ≠ I.rootSlot)
    (hleaf : ∀ k, ¬ I.Child d k) : Rearranged I J (fun k => I.Live k ∧ k ≠ d) id := by
  have hent : ∀ k, I.Live k → k ≠ d → J.entry k = I.entry k := fun k hk hne => h.entry k (hw.live_data hk) hne
  have hfat : ∀ k, I.Live k → k ≠ d → ∀ b ∈ I.chain k, J.fat b = I.fat b := by
    intro k hk hne b hb
    rw [h.fat b ((hw.owns k hk).data b hb).2, if_neg (hw.disjoint k d hk hd hne hb)]
  have howns : ∀ k, I.Live k → k ≠ d → J.Owns (J.entry k) (I.chain k) := fun k hk hne =>
    h.shape.owns (hw.owns k hk) (by rw [hent k hk hne]) (hfat k hk hne)
  exact {
    shape := h.shape
    live := fun k hk => hk.1
    apart := fun k l _ _ he => he
    root := ⟨.root, hr.symm⟩
    root_origin := rfl
    start := fun k hk => by rw [hent k hk.1 hk.2]; rfl
    directory := fun k hk => by rw [hent k hk.1 hk.2]; rfl
    len := fun k hk => .inl (by rw [hent k hk.1 hk.2]; rfl)
    reserved := fun b hb => by
      have hnot : b ∉ I.chain d := fun hm => absurd ((hw.owns d hd).data b hm).1 (not_lt.mpr hb)
      rw [h.fat b (hw.block_lt hb), if_neg hnot]
    fat := fun k hk => hfat k hk.1 hk.2
    unowned := fun b hb hno => by
      rw [h.fat b hb.2]
      split_ifs with hm
      · rfl
      · refine hw.unowned b hb fun k hk hbk => ?_
        by_cases hkd : k = d
        · exact hm (hkd ▸ hbk)
        · exact hno k ⟨hk, hkd⟩ hbk
    dot := by rw [hent _ .root hr.symm]
    root_dotdot := by
      have hsucc := h.entry_copy hw hd hr .root hw.root_directory (i := 1) (by rw [root_copies]; decide)
      rw [hw.root_succ] at hsucc
      rw [hsucc]
      exact hw.root_dotdot
    dotdot := fun k hk hkr hdir => by
      rw [id, h.entry_copy hw hd hr hk.1 hdir (copies_pos k)]
      exact hw.dotdot k hk.1 hkr hdir
    closed := fun p hp hdir k hk hf => by
      have hcount : J.count p = I.count p := by rw [count, count, hent p hp.1 hp.2]
      rw [id, hcount] at hk
      have hkd : k ≠ d := by
        rintro rfl
        simp [Image.free, h.gone] at hf
      have hlive : I.free (I.entry k) = false := by
        rw [← Bool.not_eq_true]
        intro hfree
        rw [h.free p hp.1 hdir k hk hkd hfree] at hf
        cases hf
      exact ⟨.child hp.1 ⟨hdir, hk, hlive⟩, hkd⟩
    reached := fun k hk => by
      obtain ⟨hk, hkd⟩ := hk
      induction hk with
      | root =>
        rw [← h.shape.rootSlot]
        exact .root
      | @child p k hp hk' ih =>
        have hpd : p ≠ d := by
          rintro rfl
          exact hleaf k hk'
        refine .child (ih hpd) ⟨?_, ?_, (howns k (.child hp hk') hkd).not_free⟩
        · rw [hent p hp hpd]
          exact hk'.1
        · have hch : J.chain p = I.chain p := (howns p hp hpd).chainOf_eq
          rw [Image.slots, hch, h.shape.slotsIn, h.shape.copies, count, hent p hp hpd]
          exact hk'.2.1 }

section Names
variable {names : List Str}

theorem entry_live (hw : I.WellFormed) (h : Freed I J d) {k : ℕ} (hk : I.Live k) (hkd : k ≠ d) :
    J.entry k = I.entry k :=
  h.entry k (hw.live_data hk) hkd

theorem child_iff (hw : I.WellFormed) (h : Freed I J d) (hd : I.Live d) (hr : d ≠ I.rootSlot)
    (hleaf : ∀ k, ¬ I.Child d k)
    {q k : ℕ} (hq : I.Live q) (hqd : q ≠ d) : J.Child q k ↔ I.Child q k ∧ k ≠ d := by
  have hR := h.rearranged hw hd hr hleaf
  have hent := h.entry_live hw hq hqd
  have hs : J.slots q = I.slots q := hR.slots hw ⟨hq, hqd⟩ (by rw [hent]; rfl)
  rw [(hR.wellFormed hw).child_iff ((hR.live_iff hw q).mpr ⟨hq, hqd⟩), hw.child_iff hq, hs, hent,
    h.shape.copies, hR.live_iff hw k]
  tauto

theorem uniqueNames (hw : I.WellFormed) (h : Freed I J d) (hd : I.Live d) (hr : d ≠ I.rootSlot)
    (hleaf : ∀ k, ¬ I.Child d k) (hu : I.UniqueNames) : J.UniqueNames := by
  intro p k l hp hk hl he
  have hp' := ((h.rearranged hw hd hr hleaf).live_iff hw p).mp hp
  rw [h.child_iff hw hd hr hleaf hp'.1 hp'.2] at hk hl
  rw [h.entry_live hw (.child hp'.1 hk.1) hk.2, h.entry_live hw (.child hp'.1 hl.1) hl.2] at he
  exact hu p k l hp'.1 hk.1 hl.1 he

theorem tidy (hw : I.WellFormed) (h : Freed I J d) (hd : I.Live d) (hr : d ≠ I.rootSlot)
    (hleaf : ∀ k, ¬ I.Child d k) (ht : I.Tidy) : J.Tidy := by
  intro p hp hdir k hk hfree
  have hR := h.rearranged hw hd hr hleaf
  obtain ⟨hp', hpd⟩ := (hR.live_iff hw p).mp hp
  have hent := h.entry_live hw hp' hpd
  have hs : J.slots p = I.slots p := hR.slots hw ⟨hp', hpd⟩ (by rw [hent]; rfl)
  rw [hs, h.shape.copies] at hk
  rw [hent] at hdir
  by_cases hkd : k = d
  · rw [hkd]
    exact h.gone
  rw [h.entry k (hw.slot_data hp' (List.mem_of_mem_drop hk)) hkd]
  refine ht p hp' hdir k hk ?_
  by_contra hno
  have hlive : I.Live k := .child hp' ⟨hdir, hk, Bool.not_eq_true _ ▸ hno⟩
  have hJ := (hR.wellFormed hw).owns k ((hR.live_iff hw k).mpr ⟨hlive, hkd⟩)
  rw [hJ.not_free] at hfree
  cases hfree

theorem findsAlike (hw : I.WellFormed) (h : Freed I J d) (hd : I.Live d) (hr : d ≠ I.rootSlot)
    (hleaf : ∀ k, ¬ I.Child d k)
    (hu : I.UniqueNames) (hdot : Dotless names) (hno : I.Clear d names) : I.FindsAlike J names := by
  intro pre q name hq hpre
  have hR := h.rearranged hw hd hr hleaf
  have hqd : q ≠ d := fun he => hno pre ((List.prefix_append _ _).trans hpre) (he ▸ hq)
  have hwalk : J.Walkable q = I.Walkable q := by rw [Walkable, Walkable, h.entry_live hw hq.live hqd]
  have hkd : ∀ k, I.Child q k → (I.entry k).name.toStr = name → k ≠ d := by
    rintro k hk rfl rfl
    exact hno _ hpre (hq.child hk)
  refine ⟨hwalk, fun hW => ?_, fun k hk hn => by rw [h.entry_live hw (.child hq.live hk) (hkd k hk hn)]⟩
  apply findSlot_alike hw (hR.wellFormed hw) (hu.oneNamed hq.live name) hq.live
    ((hR.live_iff hw q).mpr ⟨hq.live, hqd⟩) hW (hwalk.trans hW) (hdot.last hpre)
  intro k
  rw [h.child_iff hw hd hr hleaf hq.live hqd]
  constructor
  · rintro ⟨⟨hk, hne⟩, hn⟩
    rw [h.entry_live hw (.child hq.live hk) hne] at hn
    exact ⟨hk, hn⟩
  · rintro ⟨hk, hn⟩
    have hne := hkd k hk hn
    rw [h.entry_live hw (.child hq.live hk) hne]
    exact ⟨⟨hk, hne⟩, hn⟩

theorem resolve_gone (hw : I.WellFormed) (h : Freed I J d) (hd : I.Live d) (hr : d ≠ I.rootSlot)
    (hleaf : ∀ k, ¬ I.Child d k)
    (hu : I.UniqueNames) (hdot : Dotless names) (hres : I.resolve I.rootSlot names = .ok d) :
    J.resolve I.rootSlot names = .error (-ENOENT) := by
  have hdn := Named.root.resolve (hw.avoidsCopies .root hdot.1 hdot.2) hres
  rw [List.nil_append] at hdn
  rcases List.eq_nil_or_concat' names with rfl | ⟨init, name, rfl⟩
  · cases hres
    exact absurd rfl hr
  have hR := h.rearranged hw hd hr hleaf
  have hclear : I.Clear d init := fun pre hpre => hdn.not_above hw hpre
  apply (h.findsAlike hw hd hr hleaf hu hdot.take hclear).resolve_lost hw (hR.wellFormed hw) hdot hres
  intro q hq hqd hname
  have hne : q ≠ d := fun he => hclear init List.prefix_rfl (he ▸ hq)
  refine ⟨(hR.live_iff hw q).mpr ⟨hq.live, hne⟩, by rw [Walkable, Walkable, h.entry_live hw hq.live hne], ?_⟩
  intro i hi hn
  obtain ⟨hi, hid⟩ := (h.child_iff hw hd hr hleaf hq.live hne).mp hi
  rw [h.entry_live hw (.child hq.live hi) hid] at hn
  exact hid (hu q i d hq.live hi hqd (hn.trans hname.symm))

end Names

end Freed

section Room
variable {p : ℕ}

theorem WellFormed.len_le (h : I.WellFormed) {k : ℕ} (hk : I.Live k) :
    (I.entry k).len ≤ (I.chain k).length * I.bs := by
  rw [← updiv_le_iff _ _ _ h.bs_pos, h.size k hk, blocksFor]
  omega

theorem WellFormed.end_lt (h : I.WellFormed) (hp : I.Live p) (hd : (I.entry p).isDirectory)
    (hroom : ¬ I.bs ∣ (I.entry p).len) : I.count p / I.epb < (I.chain p).length := by
  have hlen : (I.entry p).len = sizeofDirEntry * I.count p := (Nat.mul_div_cancel' (h.directory p hp hd).2).symm
  have hle := h.len_le hp
  have hne : (I.entry p).len ≠ (I.chain p).length * I.bs := fun he => hroom (he ▸ Dvd.intro_left _ rfl)
  have hbs : (I.chain p).length * I.bs = sizeofDirEntry * ((I.chain p).length * I.epb) := by
    rw [bs]
    ring
  rw [hlen, hbs] at hle hne
  rw [Nat.div_lt_iff_lt_mul h.epb_pos]
  by_contra hnot
  exact hne (le_antisymm hle (Nat.mul_le_mul_left _ (Nat.le_of_not_lt hnot)))

theorem WellFormed.end_not_mem (h : I.WellFormed) (hp : I.Live p) (hd : (I.entry p).isDirectory)
    (hroom : ¬ I.bs ∣ (I.entry p).len) {q : ℕ} (hq : I.Live q) :
    I.slotAt (I.chain p) (I.count p) ∉ I.slots q := by
  intro hm
  have hend := h.end_lt hp hd hroom
  by_cases hpq : p = q
  · subst hpq
    obtain ⟨i, hi, hs⟩ := mem_slotsIn.mp hm
    have := slotAt_inj h.epb_pos (h.owns p hp).nodup (h.index_lt hp hi) hend hs
    omega
  · exact h.disjoint p q hp hq hpq (slotAt_mem h.epb_pos _ _ hend) (h.slot_mem hq hm)

theorem WellFormed.len_small (h : I.WellFormed) {k : ℕ} (hk : I.Live k) : (I.entry k).len < 2 ^ 32 :=
  calc (I.entry k).len ≤ (I.chain k).length * I.bs := h.len_le hk
    _ ≤ I.blockCount * I.bs := Nat.mul_le_mul_right _ (h.owns k hk).length_le
    _ < 2 ^ 32 := h.small

end Room

/-- `J` is `I` with an empty slot `j` behind the last entry of directory `p`; the
root's `..` copy is written anew. -/
structure Grown (I J : Image) (p j : ℕ) : Prop where
  shape : I.SameShape J
  fat : ∀ b < I.blockCount, J.fat b = I.fat b
  entry : ∀ k, I.IsData (k / I.epb) → k ≠ p → k ≠ j → (p = I.rootSlot → k ≠ I.rootSlot + 1) → J.entry k = I.entry k
  parent : J.entry p = (I.entry p).setLength ((I.entry p).len + sizeofDirEntry)
  dotdot : p = I.rootSlot → (J.entry (I.rootSlot + 1)).name.toStr = dotDotName
  slot : j = I.slotAt (I.chain p) (I.count p)
  room : ¬ I.bs ∣ (I.entry p).len
  empty : (J.entry j).start = 0
  free : ∀ q, I.Live q → (I.entry q).isDirectory → ∀ k ∈ (I.slots q).drop (I.copies q), I.free (I.entry k) →
    J.free (J.entry k)

namespace Grown
variable {p j : ℕ}

theorem entry_listed (hw : I.WellFormed) (h : Grown I J p j) (hp : I.Live p)
    (hd : (I.entry p).isDirectory) {q k : ℕ}
    (hq : I.Live q) (hk : k ∈ I.slots q) (hkp : k ≠ p) (hroot : p = I.rootSlot → k ≠ I.rootSlot + 1) :
    J.entry k = I.entry k := by
  refine h.entry k (hw.slot_data hq hk) hkp ?_ hroot
  rintro rfl
  rw [h.slot] at hk
  exact hw.end_not_mem hp hd h.room hq hk

theorem entry_live (hw : I.WellFormed) (h : Grown I J p j) (hp : I.Live p)
    (hd : (I.entry p).isDirectory) {k : ℕ} (hk : I.Live k) (hkp : k ≠ p) : J.entry k = I.entry k := by
  obtain ⟨q, hq, -, hs⟩ := hw.live_mem hk
  refine h.entry_listed hw hp hd hq hs hkp fun hpr => ?_
  by_cases hkr : k = I.rootSlot
  · omega
  · obtain ⟨q', hq', hc⟩ := hk.parent hkr
    exact hw.root_succ_not_child hq' hc.2.1

theorem parent_len (hw : I.WellFormed) (h : Grown I J p j) (hp : I.Live p) :
    (J.entry p).len = (I.entry p).len + sizeofDirEntry := by
  have hsmall := hw.len_small hp
  have hsize : sizeofDirEntry = 320 := rfl
  rw [h.parent, DirEntry.setLength_len, Nat.mod_eq_of_lt (by omega)]

theorem alike (hw : I.WellFormed) (h : Grown I J p j) (hp : I.Live p) (hd : (I.entry p).isDirectory) {k : ℕ}
    (hk : I.Live k) : (J.entry k).start = (I.entry k).start ∧ (J.entry k).name = (I.entry k).name ∧
      (J.entry k).isDirectory = (I.entry k).isDirectory ∧ (J.entry k).isFile = (I.entry k).isFile := by
  by_cases hkp : k = p
  · subst hkp
    rw [h.parent]
    exact ⟨rfl, rfl, rfl, rfl⟩
  · rw [h.entry_live hw hp hd hk hkp]
    exact ⟨rfl, rfl, rfl, rfl⟩

theorem count (hw : I.WellFormed) (h : Grown I J p j) (hp : I.Live p) (hd : (I.entry p).isDirectory) {q : ℕ}
    (hq : I.Live q) : J.count q = if q = p then I.count q + 1 else I.count q := by
  split_ifs with hqp
  · subst hqp
    rw [Image.count, Image.count, h.parent_len hw hp, Nat.add_div_right _ (by decide)]
  · rw [Image.count, Image.count, h.entry_live hw hp hd hq hqp]

theorem entry_copy (hw : I.WellFormed) (h : Grown I J p j) (hp : I.Live p) (hd : (I.entry p).isDirectory) {q i : ℕ}
    (hq : I.Live q) (hdir : (I.entry q).isDirectory) (hi : i < I.copies q)
    (hroot : q = I.rootSlot → p ≠ I.rootSlot) :
    J.entry (I.slotAt (I.chain q) i) = I.entry (I.slotAt (I.chain q) i) := by
  have hs := hw.copy_mem hq hdir hi
  by_cases hpr : p = I.rootSlot
  · have hne : ∀ l, l < I.copies I.rootSlot → I.slotAt (I.chain q) i ≠ I.slotAt (I.chain I.rootSlot) l := by
      intro l hl he
      refine hroot ?_ hpr
      exact hw.slot_parent hq .root hs (he ▸ hw.copy_mem .root hw.root_directory hl)
    have h0 := hne 0 (copies_pos _)
    have h1 := hne 1 (by rw [root_copies]; decide)
    rw [hw.root_slotAt hw.epb_pos] at h0
    rw [hw.root_succ] at h1
    exact h.entry_listed hw hp hd hq hs (hpr ▸ h0) fun _ => h1
  · obtain ⟨o, ho, hc⟩ := hp.parent hpr
    exact h.entry_listed hw hp hd hq hs (hw.copy_not_child hq hdir hi ho hc.2.1) (absurd · hpr)

theorem rearranged (hw : I.WellFormed) (h : Grown I J p j) (hp : I.Live p) (hd : (I.entry p).isDirectory) :
    Rearranged I J I.Live id := by
  have hfat : ∀ k, I.Live k → ∀ b ∈ I.chain k, J.fat b = I.fat b := fun k hk b hb =>
    h.fat b ((hw.owns k hk).data b hb).2
  have howns : ∀ k, I.Live k → J.Owns (J.entry k) (I.chain k) := fun k hk =>
    h.shape.owns (hw.owns k hk) (h.alike hw hp hd hk).1 (hfat k hk)
  have hcount := fun q hq => h.count hw hp hd (q := q) hq
  exact {
    shape := h.shape
    live := fun k hk => hk
    apart := fun k l _ _ he => he
    root := .root
    root_origin := rfl
    start := fun k hk => (h.alike hw hp hd hk).1
    directory := fun k hk => (h.alike hw hp hd hk).2.2.1
    len := fun k hk => by
      by_cases hkp : k = p
      · subst hkp
        exact .inr ⟨hd, h.room, h.parent_len hw hp⟩
      · rw [h.entry_live hw hp hd hk hkp]
        exact .inl rfl
    reserved := fun b hb => h.fat b (hw.block_lt hb)
    fat := hfat
    unowned := fun b hb hno => by
      rw [h.fat b hb.2]
      exact hw.unowned b hb hno
    dot := (h.alike hw hp hd .root).2.1
    root_dotdot := by
      by_cases hpr : p = I.rootSlot
      · exact h.dotdot hpr
      · have hsucc := h.entry_copy hw hp hd .root hw.root_directory (i := 1) (by rw [root_copies]; decide)
          fun _ => hpr
        rw [hw.root_succ] at hsucc
        rw [hsucc]
        exact hw.root_dotdot
    dotdot := fun k hk hkr hdir => by
      rw [id] at hdir ⊢
      rw [h.entry_copy hw hp hd hk hdir (copies_pos k) (absurd · hkr)]
      exact hw.dotdot k hk hkr hdir
    closed := fun q hq hdir k hk hf => by
      rw [id] at hdir hk
      have hin : k ∈ (I.slots q).drop (I.copies q) := by
        obtain ⟨i, hi, hlt, hs⟩ := mem_slotsIn_drop.mp hk
        refine mem_slotsIn_drop.mpr ⟨i, hi, ?_, hs⟩
        rw [hcount q hq] at hlt
        split_ifs at hlt with hqp
        · by_contra hge
          obtain rfl : i = I.count q := by omega
          rw [hqp, ← h.slot] at hs
          rw [← hs] at hf
          simp [Image.free, h.empty] at hf
        · exact hlt
      refine .child hq ⟨hdir, hin, ?_⟩
      rw [← Bool.not_eq_true]
      intro hfree
      rw [h.free q hq hdir k hin hfree] at hf
      cases hf
    reached := fun k hk => by
      induction hk with
      | root =>
        rw [← h.shape.rootSlot]
        exact .root
      | @child q k hq hk ih =>
        refine .child ih ⟨?_, ?_, (howns k (.child hq hk)).not_free⟩
        · rw [(h.alike hw hp hd hq).2.2.1]
          exact hk.1
        · have hch : J.chain q = I.chain q := (howns q hq).chainOf_eq
          rw [Image.slots, hch, h.shape.slotsIn, h.shape.copies]
          obtain ⟨i, hi, hlt, hs⟩ := mem_slotsIn_drop.mp hk.2.1
          refine mem_slotsIn_drop.mpr ⟨i, hi, ?_, hs⟩
          rw [hcount q hq]
          split_ifs <;> omega }

section Names
variable {names : List Str}

theorem slots (hw : I.WellFormed) (h : Grown I J p j) (hp : I.Live p) (hd : (I.entry p).isDirectory) {q : ℕ}
    (hq : I.Live q) : J.slots q = I.slots q ++ if q = p then [j] else [] := by
  rw [Image.slots, (h.rearranged hw hp hd).chain hw hq, h.shape.slotsIn, h.count hw hp hd hq]
  split_ifs with hqp
  · rw [id, slotsIn, List.range_succ, List.map_append, List.map_singleton, hqp, h.slot]
    rfl
  · rw [List.append_nil]
    rfl

theorem child_iff (hw : I.WellFormed) (h : Grown I J p j) (hp : I.Live p)
    (hd : (I.entry p).isDirectory) {q k : ℕ} (hq : I.Live q) : J.Child q k ↔ I.Child q k := by
  have hR := h.rearranged hw hp hd
  rw [(hR.wellFormed hw).child_iff ((hR.live_iff hw q).mpr hq), hw.child_iff hq, (h.alike hw hp hd hq).2.2.1,
    h.slots hw hp hd hq, h.shape.copies, hR.live_iff hw k]
  refine and_congr_right fun hdir => and_congr_left fun hk => ?_
  have hle : I.copies q ≤ (I.slots q).length := by
    rw [Image.slots, slotsIn, List.length_map, List.length_range]
    exact hw.copies_le hq hdir
  rw [List.drop_append_of_le_length hle, List.mem_append, or_iff_left]
  split_ifs with hqp
  · rw [List.mem_singleton]
    rintro rfl
    obtain ⟨o, ho, -, hs⟩ := hw.live_mem hk
    rw [h.slot] at hs
    exact hw.end_not_mem hp hd h.room ho hs
  · exact List.not_mem_nil

theorem uniqueNames (hw : I.WellFormed) (h : Grown I J p j) (hp : I.Live p) (hd : (I.entry p).isDirectory)
    (hu : I.UniqueNames) : J.UniqueNames := by
  intro q k l hq hk hl he
  have hq' := ((h.rearranged hw hp hd).live_iff hw q).mp hq
  rw [h.child_iff hw hp hd hq'] at hk hl
  rw [(h.alike hw hp hd (.child hq' hk)).2.1, (h.alike hw hp hd (.child hq' hl)).2.1] at he
  exact hu q k l hq' hk hl he

theorem walkable (hw : I.WellFormed) (h : Grown I J p j) (hp : I.Live p) (hd : (I.entry p).isDirectory) {q : ℕ}
    (hq : I.Live q) : J.Walkable q = I.Walkable q := by
  have hR := h.rearranged hw hp hd
  rw [Bool.eq_iff_iff, (hR.wellFormed hw).walkable_iff ((hR.live_iff hw q).mpr hq), hw.walkable_iff hq,
    (h.alike hw hp hd hq).2.2.1]

theorem tidy (hw : I.WellFormed) (h : Grown I J p j) (hp : I.Live p) (hd : (I.entry p).isDirectory)
    (ht : I.Tidy) : J.Tidy := by
  intro q hq hdir k hk hfree
  have hR := h.rearranged hw hp hd
  have hq' := (hR.live_iff hw q).mp hq
  have hlive : ¬ I.Live k := fun hl => by
    rw [((hR.wellFormed hw).owns k ((hR.live_iff hw k).mpr hl)).not_free] at hfree
    cases hfree
  rw [(h.alike hw hp hd hq').2.2.1] at hdir
  rw [h.slots hw hp hd hq', h.shape.copies] at hk
  have hle : I.copies q ≤ (I.slots q).length := by
    rw [Image.slots, slotsIn, List.length_map, List.length_range]
    exact hw.copies_le hq' hdir
  rw [List.drop_append_of_le_length hle, List.mem_append] at hk
  rcases hk with hk | hk
  · rw [h.entry_listed hw hp hd hq' (List.mem_of_mem_drop hk) (fun he => hlive (he ▸ hp))
      fun _ => hw.root_succ_not_child hq' hk]
    refine ht q hq' hdir k hk ?_
    by_contra hno
    exact hlive (.child hq' ⟨hdir, hk, Bool.not_eq_true _ ▸ hno⟩)
  · split_ifs at hk
    · rw [List.mem_singleton.mp hk]
      exact h.empty
    · exact absurd hk List.not_mem_nil

theorem findsAlike (hw : I.WellFormed) (h : Grown I J p j) (hp : I.Live p) (hd : (I.entry p).isDirectory)
    (hu : I.UniqueNames) (hdot : Dotless names) : I.FindsAlike J names := by
  intro pre q name hq hpre
  have hR := h.rearranged hw hp hd
  have hwalk := h.walkable hw hp hd hq.live
  refine ⟨hwalk, fun hW => ?_, fun k hk _ => (h.alike hw hp hd (.child hq.live hk)).2.2.2⟩
  apply findSlot_alike hw (hR.wellFormed hw) (hu.oneNamed hq.live name) hq.live ((hR.live_iff hw q).mpr hq.live)
    hW (hwalk.trans hW) (hdot.last hpre)
  intro k
  rw [h.child_iff hw hp hd hq.live]
  refine and_congr_right fun hk => ?_
  rw [(h.alike hw hp hd (.child hq.live hk)).2.1]

end Names

end Grown

end Thorn.FatImage.Image

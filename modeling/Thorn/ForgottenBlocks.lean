import Thorn.ChainWalks

set_option autoImplicit false

namespace Thorn.FatDriver
open ByteStore Paths FatTypes FatOperations LinkedChain Relation

/-- The walk leads on from a block as long as its cell holds a positive number. -/
def LeadsTo (fat : ℤ → ℤ) (b c : ℤ) : Prop := c = fat b ∧ IsBlock b ∧ 0 < fat b

/-- The blocks are those on the walk from `b` whose cells are final or lead on,
and `t` is `s` with their cells cleared. -/
structure Cleared (s t : Fs) (b : ℤ) (blocks : List ℤ) : Prop where
  nodup : blocks.Nodup
  walked : ∀ x, x ∈ blocks ↔ ReflTransGen (LeadsTo s.fat) b x ∧ (s.fat x = FINAL ∨ 0 < s.fat x)
  cells : ∀ c, IsBlock c → t.fat c = if c ∈ blocks then 0 else s.fat c

section Cells
variable {s : Fs} {b c x : ℤ}

theorem clearCell (hb : IsBlock b) (hc : IsBlock c) : (s.putFAT 0 b).fat c = if c = b then 0 else s.fat c :=
  putFAT_cell s 0 hb hc

theorem walk_isBlock (hb : IsBlock b) (h : ReflTransGen (LeadsTo s.fat) b x) : IsBlock x := by
  induction h with
  | refl => exact hb
  | tail _ hstep => exact hstep.1 ▸ fat_isBlock s _

theorem leadsTo_cleared (hb : IsBlock b) (y z : ℤ) :
    LeadsTo (s.putFAT 0 b).fat y z ↔ y ≠ b ∧ LeadsTo s.fat y z := by
  constructor
  · rintro ⟨rfl, hy, hpos⟩
    rw [clearCell hb hy] at hpos
    have hne : y ≠ b := by
      intro he
      rw [if_pos he] at hpos
      exact lt_irrefl 0 hpos
    rw [clearCell hb hy, if_neg hne]
    rw [if_neg hne] at hpos
    exact ⟨hne, rfl, hy, hpos⟩
  · rintro ⟨hne, rfl, hy, hpos⟩
    rw [LeadsTo, clearCell hb hy, if_neg hne]
    exact ⟨rfl, hy, hpos⟩

theorem Cleared.final (hb : IsBlock b) (h : s.fat b = FINAL) : Cleared s (s.putFAT 0 b) b [b] where
  nodup := List.nodup_singleton b
  walked x := by
    have hstop : ∀ z, ¬ LeadsTo s.fat b z := by
      rintro z ⟨-, -, hpos⟩
      rw [h] at hpos
      exact absurd hpos (by decide)
    rw [reach_stop hstop, List.mem_singleton]
    exact ⟨fun hx => ⟨hx, .inl (hx ▸ h)⟩, And.left⟩
  cells c hc := by
    rw [clearCell hb hc]
    simp only [List.mem_singleton]

theorem Cleared.nothing (h : s.fat b ≠ FINAL) (h' : ¬ 0 < s.fat b) : Cleared s s b [] where
  nodup := List.nodup_nil
  walked x := by
    have hstop : ∀ z, ¬ LeadsTo s.fat b z := fun z hz => h' hz.2.2
    rw [reach_stop hstop]
    refine iff_of_false List.not_mem_nil ?_
    rintro ⟨rfl, hfinal | hpos⟩
    · exact h hfinal
    · exact h' hpos
  cells c _ := (if_neg List.not_mem_nil).symm

theorem Cleared.link {t : Fs} {blocks : List ℤ} (hb : IsBlock b) (hpos : 0 < s.fat b)
    (h : Cleared (s.putFAT 0 b) t (s.fat b) blocks) : Cleared s t b (b :: blocks) := by
  have hself : (s.putFAT 0 b).fat b = 0 := by rw [clearCell hb hb, if_pos rfl]
  have hfresh : b ∉ blocks := by
    intro hm
    rcases ((h.walked b).mp hm).2 with hfinal | hmore
    · rw [hself] at hfinal
      exact absurd hfinal (by decide)
    · rw [hself] at hmore
      exact lt_irrefl 0 hmore
  have hstep : ∀ z, LeadsTo s.fat b z ↔ z = s.fat b := fun z => ⟨And.left, fun hz => ⟨hz, hb, hpos⟩⟩
  refine ⟨List.nodup_cons.mpr ⟨hfresh, h.nodup⟩, fun x => ?_, fun c hc => ?_⟩
  · rw [List.mem_cons, reach_cut hstep (leadsTo_cleared hb), h.walked x]
    by_cases hx : x = b
    · rw [hx]
      exact iff_of_true (.inl rfl) ⟨.inl rfl, .inr hpos⟩
    · rw [or_iff_right hx, or_iff_right hx]
      refine and_congr_right fun hwalk => ?_
      have hblock : IsBlock x := walk_isBlock (fat_isBlock s b) hwalk
      rw [clearCell hb hblock, if_neg hx]
  · rw [h.cells c hc, clearCell hb hc]
    simp only [List.mem_cons]
    by_cases hcb : c = b
    · rw [if_pos hcb, ite_self, if_pos (.inl hcb)]
    · rw [if_neg hcb]
      simp only [hcb, false_or]

end Cells

/-- The loop never clears a cell twice, and there are no more than `2 ^ 32` of them. -/
theorem forgetLoop_clears {s : Fs} {b : ℤ} (passed : List ℤ) (hnodup : passed.Nodup)
    (hrange : ∀ x ∈ passed, IsBlock x) (hclear : ∀ x ∈ passed, s.fat x = 0) (hb : IsBlock b) (fuel removed : ℕ)
    (hfuel : 2 ^ 32 < passed.length + fuel) :
    ∃ blocks t, forgetLoop fuel b removed s = some (removed + blocks.length, t) ∧ Cleared s t b blocks ∧
      t.blocksFree = s.blocksFree := by
  induction fuel generalizing passed b s removed with
  | zero =>
    have := blocks_bounded hnodup hrange
    omega
  | succ fuel ih =>
    rw [forgetLoop, run_bind, run_readFAT, Option.bind_some, run_ite]
    by_cases hfinal : s.fat b = FINAL
    · rw [if_pos hfinal, run_bind, run_writeFAT, Option.bind_some, run_pure]
      exact ⟨[b], s.putFAT 0 b, rfl, .final hb hfinal, rfl⟩
    · rw [if_neg hfinal, run_ite]
      by_cases hpos : 0 < s.fat b
      · rw [if_pos hpos, run_bind, run_writeFAT, Option.bind_some]
        have hnew : b ∉ passed := by
          intro hm
          rw [hclear b hm] at hpos
          exact lt_irrefl 0 hpos
        have hcleared : ∀ x ∈ b :: passed, (s.putFAT 0 b).fat x = 0 := by
          intro x hx
          rcases List.mem_cons.mp hx with rfl | hx
          · rw [clearCell hb hb, if_pos rfl]
          · rw [clearCell hb (hrange x hx), hclear x hx, ite_self]
        have hblocks : ∀ x ∈ b :: passed, IsBlock x := by
          intro x hx
          rcases List.mem_cons.mp hx with rfl | hx
          · exact hb
          · exact hrange x hx
        obtain ⟨blocks, t, hrun, ht, hfree⟩ := ih (b :: passed) (List.nodup_cons.mpr ⟨hnew, hnodup⟩) hblocks
          hcleared (fat_isBlock s b) (removed + 1) (by rw [List.length_cons]; omega)
        refine ⟨b :: blocks, t, ?_, ht.link hb hpos, hfree⟩
        rw [hrun, List.length_cons, Nat.add_assoc, Nat.add_comm 1]
      · rw [if_neg hpos, run_pure]
        exact ⟨[], s, rfl, .nothing hfinal hpos, rfl⟩

/-- `forget` returns on every table, with the number of distinct cells it has cleared. -/
theorem forget_exact (s : Fs) (start : ℤ) (hblock : IsBlock start) (hlow : 0 ≤ start)
    (hhigh : start < s.superblock.blockCount) :
    ∃ blocks t, forget start s = some (blocks.length, t) ∧ Cleared s t start blocks ∧
      t.blocksFree = s.blocksFree + blocks.length := by
  have hfuel : 2 ^ 32 < ([] : List ℤ).length + walkFuel s.superblock := by
    rw [List.length_nil, walkFuel]
    omega
  obtain ⟨blocks, t, hrun, ht, hfree⟩ :=
    forgetLoop_clears [] List.nodup_nil (fun x hx => absurd hx List.not_mem_nil)
    (fun x hx => absurd hx List.not_mem_nil) hblock _ 0 hfuel
  rw [Nat.zero_add] at hrun
  refine ⟨blocks, t.addFree blocks.length, ?_, ⟨ht.nodup, ht.walked, ht.cells⟩, ?_⟩
  · rw [forget, run_bind, run_get, Option.bind_some, run_bind, hrun, Option.bind_some, run_bind,
      run_addBlocksFree, Option.bind_some, run_pure]
    rfl
  · change t.blocksFree + (blocks.length : ℤ) = s.blocksFree + blocks.length
    rw [hfree]

/-- On the disk with a block linked to itself: `/f` is forgotten, that block and all. -/
theorem forget_looped : ∃ blocks t, forget 4 looped = some (blocks.length, t) ∧ Cleared looped t 4 blocks ∧
    t.blocksFree = looped.blocksFree + blocks.length :=
  forget_exact looped 4 (by unfold IsBlock; decide) (by decide) (by decide)

end Thorn.FatDriver

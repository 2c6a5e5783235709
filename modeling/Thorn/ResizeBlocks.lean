import Thorn.WriteContent
import Thorn.FatSample

set_option autoImplicit false

namespace Thorn.FatDriver
open ByteStore Paths FatTypes FatOperations FatImage LinkedChain

/-- The blocks a size asks for, the first one included that a file always has. -/
def Driver.blocksFor (s : Fs) (size : ℕ) : ℕ := max 1 (updiv size s.bs)

/-- The file at slot `k` has the blocks of its new size: the first of those it had,
or all of them and free ones behind. -/
structure RightBlocks (s t : Fs) (k new_size : ℕ) (returned : DirEntry) : Prop where
  owns : t.image.Owns (t.entry k) (t.image.chain k)
  count : (t.image.chain k).length = s.blocksFor new_size
  kept : s.blocksFor new_size ≤ (s.image.chain k).length →
    t.image.chain k = (s.image.chain k).take (s.blocksFor new_size) ∧
      ∀ b ∈ (s.image.chain k).drop (s.blocksFor new_size), t.fat b = 0
  added : (s.image.chain k).length < s.blocksFor new_size →
    ∃ new, t.image.chain k = s.image.chain k ++ new ∧ new.Nodup ∧ ∀ b ∈ new, b < s.blockCount ∧ s.fat b = 0
  others : ∀ b < s.blockCount, b ∉ s.image.chain k → b ∉ t.image.chain k → t.fat b = s.fat b
  stored : (t.entry k).len = new_size
  returned : returned.len = new_size

variable {s : Fs}

theorem resized_fat (hg : Geometry s) {e : DirEntry} {k : ℕ} (hk : s.IsSlot k) {size b : ℕ} (hne : e.len ≠ size)
    (hb : b < s.blockCount) : (s.resized e (320 * k) size).fat b = (s.reblocked e size).fat b := by
  have hframe := SameFrame.reblocked s e size
  rw [Driver.resized, if_neg hne]
  exact storeEntry_fat (hframe.geometry hg) (hframe.isSlot.mpr hk) _ (hframe.blockCount ▸ hb)

theorem resized_entry (hg : Geometry s) {k : ℕ} (hk : s.IsSlot k) (size : ℕ) :
    (s.resized (s.entry k) (320 * k) size).entry k = (s.entry k).setLength size := by
  have hframe := SameFrame.reblocked s (s.entry k) size
  unfold Driver.resized
  split_ifs with hsame
  · rw [← hsame, setLength_self]
  · rw [storeEntry_entry (hframe.geometry hg) (hframe.isSlot.mpr hk), if_pos rfl]

theorem newChain_kept {e : DirEntry} {size : ℕ} (hle : s.blocksFor size ≤ (s.image.chainOf e).length) :
    s.newChain e size = (s.image.chainOf e).take (s.blocksFor size) := if_pos hle

theorem newChain_added {e : DirEntry} {size : ℕ} (hlt : (s.image.chainOf e).length < s.blocksFor size) :
    s.newChain e size = s.image.chainOf e ++ s.freeList.take (updiv size s.bs - 1) :=
  if_neg (Nat.not_le_of_lt hlt)

/-- A `resize` that succeeds gives the file the blocks its new size asks for just when
it adds none, or the file has a single block. -/
theorem resize_blocks_iff (hw : WellFormed s) {k : ℕ} (hk : s.image.Live k) {new_size : ℕ}
    (hn : new_size < 2 ^ 64)
    {returned : DirEntry} {t : Fs} (hrun : resize (s.entry k) (320 * k) new_size s = some ((0, returned), t)) :
    RightBlocks s t k new_size returned ↔
      s.blocksFor new_size ≤ (s.image.chain k).length ∨ (s.image.chain k).length = 1 := by
  have hg := hw.geometry
  have hr : s.image.Readable (s.entry k) := hw.image.readable hk
  have hslot : s.IsSlot k := hw.image.live_data hk
  have hfree : ∀ f ∈ s.freeList, s.image.IsData f := fun f hf => hw.free_data hf
  rw [run_resize_eq hg (fun f hf => by have := (hfree f hf).1; omega) hr] at hrun
  split_ifs at hrun with hlarge
  · cases hrun
  obtain ⟨rfl, rfl⟩ : (s.entry k).setLength new_size = returned ∧
      s.resized (s.entry k) (320 * k) new_size = t :=
    ⟨congrArg (fun p => p.1.2) (Option.some.inj hrun), congrArg Prod.snd (Option.some.inj hrun)⟩
  have hentry := resized_entry hg hslot new_size
  have howns := resized_owns hg hfree hr hslot new_size
  rw [← hentry] at howns
  have hchain : (s.resized (s.entry k) (320 * k) new_size).image.chain k = s.newChain (s.entry k) new_size :=
    howns.chainOf_eq
  have hlen : ((s.entry k).setLength new_size).len = new_size := by
    rw [DirEntry.setLength_len, Nat.mod_eq_of_lt hn]
  have hpos : 0 < (s.image.chain k).length := hr.owns.length_pos
  have hgrown : (s.image.chain k).length < s.blocksFor new_size →
      (s.newChain (s.entry k) new_size).length = (s.image.chain k).length + (s.blocksFor new_size - 1) := by
    intro hlt
    have hblocks : s.blocksFor new_size = updiv new_size s.bs := by
      unfold Driver.blocksFor at hlt ⊢
      omega
    have hroom : s.HasRoom new_size := by
      by_contra hno
      exact hlarge ⟨by change (s.image.chain k).length < _; omega, hno⟩
    have := hroom.2
    rw [newChain_added (e := s.entry k) hlt, List.length_append, List.length_take]
    change (s.image.chain k).length + _ = _
    omega
  constructor
  · intro h
    by_contra hno
    obtain ⟨hlt, hone⟩ := not_or.mp hno
    have hcount := h.count
    rw [hchain, hgrown (Nat.lt_of_not_le hlt)] at hcount
    omega
  · intro hcond
    refine ⟨hchain ▸ howns, ?_, fun hle => ⟨hchain.trans (newChain_kept (e := s.entry k) hle), fun b hb => ?_⟩,
      fun hlt => ?_, fun b hb hl hc => ?_, hentry ▸ hlen, hlen⟩
    · rw [hchain]
      by_cases hle : s.blocksFor new_size ≤ (s.image.chain k).length
      · rw [newChain_kept (e := s.entry k) hle]
        exact List.length_take_of_le hle
      · have hone := hcond.resolve_left hle
        rw [hgrown (Nat.lt_of_not_le hle)]
        omega
    · by_cases hsame : (s.entry k).len = new_size
      · have hsize : (s.image.chain k).length = s.blocksFor (s.entry k).len := chain_length hg hr
        rw [← hsame, ← hsize, List.drop_length] at hb
        cases hb
      · have hmem : b ∈ s.image.chain k := List.mem_of_mem_drop hb
        rw [resized_fat hg hslot hsame (hr.owns.data b hmem).2]
        refine reblocked_fat_freed hg hr hmem ?_
        rw [newChain_kept (e := s.entry k) hle]
        exact fun hc => List.disjoint_take_drop hr.owns.nodup le_rfl hc hb
    · refine ⟨s.freeList.take (updiv new_size s.bs - 1), hchain.trans (newChain_added (e := s.entry k) hlt), ?_,
        fun b hb => ?_⟩
      · exact (freeList_nodup s).sublist (List.take_sublist _ _)
      · exact mem_freeList.mp (List.mem_of_mem_take hb)
    · by_cases hsame : (s.entry k).len = new_size
      · rw [Driver.resized, if_pos hsame]
      · rw [resized_fat hg hslot hsame hb]
        exact reblocked_fat_other hg hr hb hl (hchain ▸ hc)

open FatSample

theorem disk_resize_f (new_size : ℕ) : resize (disk.entry 6) (320 * 6) new_size disk =
    some (if disk.TooLarge (disk.entry 6) new_size then ((-ENOSPC, disk.entry 6), disk)
      else ((0, (disk.entry 6).setLength new_size), disk.resized (disk.entry 6) (320 * 6) new_size)) := by
  have hw := disk_wellFormed
  have hlive : disk.image.Live 6 := (disk_live 6).mpr (by decide)
  refine run_resize_eq hw.geometry (fun f hf => ?_) (hw.image.readable hlive) _ _
  have := (hw.free_data hf).1
  omega

/-- The file of two blocks is cut to half a block. -/
theorem resize_blocks_cut : ∃ returned t, resize (disk.entry 6) (320 * 6) 300 disk = some ((0, returned), t) ∧
    (RightBlocks disk t 6 300 returned ↔
      disk.blocksFor 300 ≤ (disk.image.chain 6).length ∨ (disk.image.chain 6).length = 1) := by
  have hlive : disk.image.Live 6 := (disk_live 6).mpr (by decide)
  have hrun := disk_resize_f 300
  have hbs : disk.bs = 640 := rfl
  have hchain : disk.image.chainOf (disk.entry 6) = [4, 6] := disk_chain_f
  have hroom : ¬ disk.TooLarge (disk.entry 6) 300 := by
    rintro ⟨hlt, -⟩
    rw [hchain, hbs] at hlt
    revert hlt
    decide
  rw [if_neg hroom] at hrun
  exact ⟨_, _, hrun, resize_blocks_iff disk_wellFormed hlive (by decide) hrun⟩

/-- The file of two blocks is made one of three: it gets two more. -/
theorem resize_adds_too_much :
    ∃ returned t, resize (disk.entry 6) (320 * 6) 1900 disk = some ((0, returned), t) ∧
    (t.image.chain 6).length = 4 ∧ disk.blocksFor 1900 = 3 ∧ ¬ RightBlocks disk t 6 1900 returned := by
  have hw := disk_wellFormed
  have hlive : disk.image.Live 6 := (disk_live 6).mpr (by decide)
  have hrun := disk_resize_f 1900
  have hbs : disk.bs = 640 := rfl
  have hblocks : disk.blocksFor 1900 = 3 := by
    unfold Driver.blocksFor
    rw [hbs]
    decide
  have hchain : disk.image.chainOf (disk.entry 6) = [4, 6] := disk_chain_f
  have hroom : ¬ disk.TooLarge (disk.entry 6) 1900 := by
    rintro ⟨-, hno⟩
    apply hno
    unfold Driver.HasRoom
    rw [disk_freeList, hbs]
    decide
  rw [if_neg hroom] at hrun
  have hslot : disk.IsSlot 6 := hw.image.live_data hlive
  have howns :=
    resized_owns (e := disk.entry 6) hw.geometry (fun f hf => hw.free_data hf) (hw.image.readable hlive) hslot
    1900
  rw [← resized_entry hw.geometry hslot 1900] at howns
  have hlength : ((disk.resized (disk.entry 6) (320 * 6) 1900).image.chain 6).length = 4 := by
    rw [show (disk.resized (disk.entry 6) (320 * 6) 1900).image.chain 6 = _ from howns.chainOf_eq,
      newChain_added (by rw [hblocks, hchain]; decide), hchain, disk_freeList, hbs]
    decide
  refine ⟨_, _, hrun, hlength, hblocks, fun h => ?_⟩
  have hcount := h.count
  rw [hlength, hblocks] at hcount
  cases hcount

end Thorn.FatDriver

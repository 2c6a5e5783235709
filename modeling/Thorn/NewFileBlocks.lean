import Thorn.RenameEdits
import Thorn.ChainWalks

set_option autoImplicit false

/-!
# The blocks of a new file

`newFile` links the further blocks of a longer file while the cells of some of
them are still free: every block but one is found twice. What the new entry, its
chain and its parent look like afterwards, against what was asked for.
-/
namespace Thorn.FatDriver
open ByteStore Paths FatTypes FatOperations FatImage LinkedChain

structure Linked (v t : Fs) (b : ℕ) (l : List ℕ) : Prop where
  table : OnlyTable v t
  chain : Chain t.image.next t.image.Final b (b :: l)
  others : ∀ c : ℕ, c < v.blockCount → c ∉ b :: l → t.fat c = v.fat c

section Links
variable {v w t : Fs} {b g : ℕ} {l : List ℕ}

theorem Linked.of_cell (h : Linked w t b l) (hw : OnlyTable v w)
    (hcells : ∀ c : ℕ, c < v.blockCount → c ≠ b → w.fat c = v.fat c) : Linked v t b l where
  table := hw.trans h.table
  chain := h.chain
  others c hc hno := by
    have hne : c ≠ b := fun he => hno (he ▸ List.mem_cons_self)
    rw [h.others c (hw.frame.blockCount ▸ hc) hno, hcells c hc hne]

theorem Linked.cons (h : Linked w t g l) (hw : OnlyTable v w) (hb : b < v.blockCount) (hlink : w.fat b = g)
    (hg : 0 < g)
    (hno : b ∉ g :: l) (hcells : ∀ c : ℕ, c < v.blockCount → c ≠ b → w.fat c = v.fat c) :
    Linked v t b (g :: l) where
  table := hw.trans h.table
  chain := by
    apply Chain.link _ h.chain
    rw [Image.next, image_fat, h.others b (hw.frame.blockCount ▸ hb) hno, hlink, if_pos (by exact_mod_cast hg),
      Int.toNat_natCast]
  others c hc hnot := by
    have hcb : c ≠ b := fun he => hnot (he ▸ List.mem_cons_self)
    rw [h.others c (hw.frame.blockCount ▸ hc) fun hm => hnot (List.mem_cons_of_mem _ hm), hcells c hc hcb]

theorem linked_final (hg : Geometry v) (hb : b < v.blockCount) : Linked v (v.putFAT FINAL b) b [] where
  table := .putFAT hg FINAL hb
  chain := .last ((putFAT_final_fat hg hb hb).trans (if_pos rfl))
  others c hc hno := (putFAT_final_fat hg hb hc).trans (if_neg fun he : c = b => hno (he ▸ List.mem_cons_self))

end Links

/-- The loop of `newFile` behind block `b`: the first `m` blocks of `l` are linked, or there are too few. -/
def Extends (v : Fs) (old : ℤ) (fuel size b : ℕ) (l : List ℕ) (m : ℕ) : Prop :=
  ∃ status t, extendLoop v.bs old fuel size b v = some (status, t) ∧
    (m ≤ l.length → status = 0 ∧ Linked v t b (l.take m)) ∧ (l.length < m → status = -ENOSPC)

section Extend
variable {v : Fs}

theorem extendLoop_none (hg : Geometry v) (old : ℤ) (fuel : ℕ) {size : ℕ} (b : ℕ) (hsize : v.bs < size)
    (hfree : v.freeList = []) : ∃ t, extendLoop v.bs old (fuel + 1) size b v = some (-ENOSPC, t) := by
  have hnone : v.firstFree = UNUSABLE := by
    rw [Driver.firstFree, hfree]
    rfl
  have hframe : SameFrame v ({ v.putFAT FINAL b with blocksFree := -1 }.putFAT 0 old) := ⟨rfl, rfl, rfl⟩
  rw [extendLoop, run_ite, if_pos hsize, run_bind, run_findFreeBlock, Option.bind_some, hnone, run_ite,
    if_pos rfl,
    run_bind, run_writeFAT, Option.bind_some, run_bind, run_modify, Option.bind_some, run_bind, run_writeFAT,
    Option.bind_some, run_bind, run_countFree (hframe.geometry hg), Option.bind_some, run_pure]
  exact ⟨_, rfl⟩

theorem extendLoop_step (hg : Geometry v) (old : ℤ) {fuel size b g : ℕ} {gs : List ℕ} (hsize : v.bs < size)
    (hfree : v.freeList = g :: gs) : extendLoop v.bs old (fuel + 1) size b v =
      extendLoop v.bs old fuel (size - v.bs) g ((v.addFree (-1)).putFAT g b) := by
  have hne : ((g : ℕ) : ℤ) ≠ UNUSABLE := by
    simp only [UNUSABLE]
    omega
  rw [extendLoop, run_ite, if_pos hsize, run_bind, run_findFreeBlock, Option.bind_some, firstFree_cons hg hfree,
    run_ite,
    if_neg hne, run_bind, run_addBlocksFree, Option.bind_some, run_bind, run_writeFAT, Option.bind_some]
  rfl

/-- Behind a block that is taken, every other turn of the loop takes a block; behind one whose cell is still
free, the first turn finds that block itself. -/
theorem extendLoop_extends (old : ℤ) (fuel : ℕ) :
    ∀ (v : Fs) (size b : ℕ), Geometry v → size < fuel → b < v.blockCount →
    (∀ f ∈ v.freeList, 0 < f) → (v.fat b ≠ 0 → Extends v old fuel size b v.freeList (updiv size v.bs / 2)) ∧
      ∀ gs, v.freeList = b :: gs → Extends v old fuel size b gs ((updiv size v.bs - 1) / 2) := by
  induction fuel with
  | zero => exact fun _ _ _ _ hfuel => absurd hfuel (Nat.not_lt_zero _)
  | succ fuel ih =>
    intro v size b hg hfuel hb hpos
    have hbs := hg.bs_pos
    by_cases hsize : size ≤ v.bs
    · have hone : updiv size v.bs ≤ 1 := (updiv_le_iff _ _ _ hbs).mpr (by omega)
      have hrun := run_extendLoop v.bs old fuel size b hsize v
      have hfinal : ∀ l m, m = 0 → Extends v old (fuel + 1) size b l m := by
        rintro l m rfl
        exact ⟨0, _, hrun, fun _ => ⟨rfl, linked_final hg hb⟩, fun h => absurd h (Nat.not_lt_zero _)⟩
      exact ⟨fun _ => hfinal _ _ (by omega), fun gs _ => hfinal _ _ (by omega)⟩
    · have hlt : v.bs < size := not_le.mp hsize
      have hu := updiv_sub hbs hlt
      have hu' := updiv_pos (size - v.bs) v.bs hbs (by omega)
      have hframe : ∀ g : ℕ, SameFrame v ((v.addFree (-1)).putFAT g b) := fun _ => ⟨rfl, rfl, rfl⟩
      have htable : ∀ g : ℕ, OnlyTable v ((v.addFree (-1)).putFAT g b) := fun g =>
        (OnlyTable.addFree v (-1)).trans (.putFAT ((SameFrame.addFree v (-1)).geometry hg) g hb)
      have hfat : ∀ g c : ℕ, g < v.blockCount → c < v.blockCount →
          ((v.addFree (-1)).putFAT g b).fat c = if c = b then (g : ℤ) else v.fat c := fun g c hgc hc =>
        putFAT_block_fat ((SameFrame.addFree v (-1)).geometry hg) hb hc hgc
      constructor
      · intro hused
        cases hfree : v.freeList with
        | nil =>
          obtain ⟨t, hrun⟩ := extendLoop_none hg old fuel b hlt hfree
          refine ⟨_, t, hrun, fun hm => ?_, fun _ => rfl⟩
          rw [List.length_nil] at hm
          omega
        | cons g gs =>
          have hmem : g ∈ v.freeList := hfree ▸ List.mem_cons_self
          have hgc := (mem_freeList.mp hmem).1
          have hfree' : ((v.addFree (-1)).putFAT g b).freeList = g :: gs := by
            rw [← hfree]
            exact freeList_putFAT (s := v.addFree (-1)) ((SameFrame.addFree v (-1)).geometry hg) hb hgc
              (hpos g hmem).ne' hused
          have hrest := (ih _ (size - v.bs) g ((hframe g).geometry hg) (by omega) hgc
            (by rw [hfree', ← hfree]; exact hpos)).2 gs hfree'
          obtain ⟨status, t, hrun, hyes, hno⟩ := hrest
          refine ⟨status, t, (extendLoop_step hg old hlt hfree).trans hrun, fun hm => ?_, fun hm => ?_⟩
          · have hm' : (updiv size v.bs) / 2 = (updiv (size - v.bs) v.bs - 1) / 2 + 1 := by omega
            rw [hm', List.length_cons] at hm
            obtain ⟨hstatus, hlinked⟩ := hyes (Nat.le_of_succ_le_succ hm)
            have hnot : b ∉ g :: gs.take ((updiv (size - v.bs) v.bs - 1) / 2) := by
              intro hin
              have hb' : b ∈ v.freeList := by
                rw [hfree]
                rcases List.mem_cons.mp hin with rfl | hin
                · exact List.mem_cons_self
                · exact List.mem_cons_of_mem _ (List.mem_of_mem_take hin)
              exact hused (mem_freeList.mp hb').2
            rw [hm', List.take_succ_cons]
            exact ⟨hstatus, hlinked.cons (htable g) hb ((hfat g b hgc hb).trans (if_pos rfl)) (hpos g hmem) hnot
              fun c hc hcb => (hfat g c hgc hc).trans (if_neg hcb)⟩
          · rw [List.length_cons] at hm
            have hm' : gs.length < (updiv (size - v.bs) v.bs - 1) / 2 := by omega
            exact hno hm'
      · intro gs hfree
        have hmem : b ∈ v.freeList := hfree ▸ List.mem_cons_self
        have hb0 := hpos b hmem
        have hfree' : ((v.addFree (-1)).putFAT b b).freeList = gs := by
          refine freeList_tail (t := (v.addFree (-1)).putFAT b b) hfree rfl fun c hc => ?_
          rw [hfat b c hb hc]
          by_cases hcb : c = b
          · rw [if_pos hcb]
            exact iff_of_false (by exact_mod_cast hb0.ne') fun h => h.2 hcb
          · rw [if_neg hcb]
            exact ⟨fun h => ⟨h, hcb⟩, fun h => h.1⟩
        have hused : ((v.addFree (-1)).putFAT b b).fat b ≠ 0 := by
          rw [hfat b b hb hb, if_pos rfl]
          exact_mod_cast hb0.ne'
        have hrest := (ih _ (size - v.bs) b ((hframe b).geometry hg) (by omega) hb
          (by rw [hfree']; exact fun f hf => hpos f (hfree ▸ List.mem_cons_of_mem _ hf))).1 hused
        rw [hfree'] at hrest
        obtain ⟨status, t, hrun, hyes, hno⟩ := hrest
        have hm' : (updiv size v.bs - 1) / 2 = updiv (size - v.bs) v.bs / 2 := by omega
        rw [hm']
        refine ⟨status, t, (extendLoop_step hg old hlt hfree).trans hrun, fun hm => ?_, hno⟩
        obtain ⟨hstatus, hlinked⟩ := hyes hm
        exact ⟨hstatus, hlinked.of_cell (htable b) fun c hc hcb => (hfat b c hb hc).trans (if_neg hcb)⟩

end Extend

section Finish
variable {s : Fs} {p k : ℕ} {newfile : DirEntry}

theorem entered_fat (hg : Geometry s) (hp : s.IsSlot p) (hk : s.Takes k) (grow : Bool) {b : ℕ}
    (hb : b < s.blockCount) : (s.entered p k newfile grow true).fat b = s.fat b := by
  cases grow with
  | true => exact grown_fat hg hp hk hb
  | false => exact storeEntry_fat hg hk.slot newfile hb

theorem entered_freeList (hg : Geometry s) (hp : s.IsSlot p) (hk : s.Takes k) (newfile : DirEntry)
    (grow : Bool) : (s.entered p k newfile grow true).freeList = s.freeList := by
  have hcount : (s.entered p k newfile grow true).superblock.blockCount = s.superblock.blockCount :=
    (SameFrame.entered s p k newfile grow true).blockCount
  unfold Driver.freeList
  rw [hcount]
  apply List.filter_congr
  intro b hb
  rw [entered_fat hg hp hk grow (List.mem_range.mp hb)]

theorem run_newFileFinish_loop {parent : FindResult} (hp : IsParent s p parent) (newfile : DirEntry)
    (k length : ℕ) (old : ℤ) (grow : Bool) :
    newFileFinish parent newfile (320 * k) length old false grow (s.storeEntry newfile (320 * k)) =
      (extendLoop s.bs old (length + 1) length newfile.start (s.entered p k newfile grow true)).map fun q =>
        (if q.1 < 0 then .fail q.1 else s.newResult p k newfile grow, q.2) := by
  have hbs : (s.storeEntry newfile (320 * k)).superblock.blockSize = s.bs :=
    (SameFrame.storeEntry s newfile (320 * k)).bs
  obtain ⟨hstatus, hentry, hoffset⟩ := hp
  have hend : ∀ (t : Fs) (r : NewFileResult), r = s.newResult p k newfile grow →
      ((extendLoop s.bs old (length + 1) length newfile.start t).bind fun q =>
        if q.1 < 0 then some (.fail q.1, q.2) else some (r, q.2)) =
          (extendLoop s.bs old (length + 1) length newfile.start t).map fun q =>
            (if q.1 < 0 then .fail q.1 else s.newResult p k newfile grow, q.2) := by
    rintro t r rfl
    cases extendLoop s.bs old (length + 1) length newfile.start t with
    | none => rfl
    | some q =>
      rw [Option.bind_some, Option.map_some]
      split_ifs <;> rfl
  unfold newFileFinish
  rw [run_bind, run_get, Option.bind_some]
  cases grow with
  | true =>
    simp only [Bool.false_eq_true, ite_true, ite_false, run_bind, run_pure, Option.bind_some, run_writeEntry,
      run_ite, lt_self_iff_false, hstatus, hentry, hoffset, hbs]
    exact hend _ _ rfl
  | false =>
    simp only [Bool.false_eq_true, ite_false, run_bind, run_pure, Option.bind_some,
      run_ite, lt_self_iff_false, hstatus, hentry, hoffset, hbs]
    exact hend _ _ rfl

structure Finishes (s : Fs) (p k b : ℕ) (newfile : DirEntry) (grow : Bool) (l : List ℕ) (m : ℕ)
    (r : NewFileResult) (t : Fs) : Prop where
  enough : m ≤ l.length → r = s.newResult p k newfile grow ∧ Linked (s.entered p k newfile grow true) t b (l.take m)
  few : l.length < m → r.status = -ENOSPC

theorem newFileFinish_finishes {parent : FindResult}
    (hp : IsParent s p parent) {length b m : ℕ} {old : ℤ} {grow : Bool}
    {l : List ℕ} (hstart : newfile.start = b)
    (h : Extends (s.entered p k newfile grow true) old (length + 1) length b l m) :
    ∃ r t, newFileFinish parent newfile (320 * k) length old false grow (s.storeEntry newfile (320 * k)) = some (r, t) ∧
      Finishes s p k b newfile grow l m r t := by
  obtain ⟨status, t, hrun, hyes, hno⟩ := h
  have hbs := (SameFrame.entered s p k newfile grow true).bs
  rw [hbs] at hrun
  rw [run_newFileFinish_loop hp, hstart, hrun, Option.map_some]
  refine ⟨_, t, rfl, fun hm => ?_, fun hm => ?_⟩
  · obtain ⟨rfl, hlinked⟩ := hyes hm
    exact ⟨if_neg (lt_irrefl 0), hlinked⟩
  · obtain rfl := hno hm
    rfl

theorem newFileFinish_taken {parent : FindResult} (hg : Geometry s) (hp : IsParent s p parent)
    (hslot : s.IsSlot p)
    (hk : s.Takes k) (hpos : ∀ f ∈ s.freeList, 0 < f) {b : ℕ} (hstart : newfile.start = b)
    (hb : b < s.blockCount)
    (hused : s.fat b ≠ 0) (length : ℕ) (old : ℤ) (grow : Bool) :
    ∃ r t, newFileFinish parent newfile (320 * k) length old false grow (s.storeEntry newfile (320 * k)) = some (r, t) ∧
      Finishes s p k b newfile grow s.freeList (updiv length s.bs / 2) r t := by
  have hframe := SameFrame.entered s p k newfile grow true
  have hlist := entered_freeList hg hslot hk newfile grow
  have h := (extendLoop_extends old (length + 1) (s.entered p k newfile grow true) length b (hframe.geometry hg)
    (Nat.lt_succ_self _) (hframe.blockCount ▸ hb) (hlist ▸ hpos)).1 (by rwa [entered_fat hg hslot hk grow hb])
  rw [hlist, hframe.bs] at h
  exact newFileFinish_finishes hp hstart h

theorem newFileFinish_open (hg : Geometry s) (parent : FindResult) (hp : IsParent s p parent)
    (hslot : s.IsSlot p)
    (hk : s.Takes k) (hpos : ∀ f ∈ s.freeList, 0 < f) {b : ℕ} {gs : List ℕ} (hstart : newfile.start = b)
    (hfree : s.freeList = b :: gs) (length : ℕ) (old : ℤ) (grow : Bool) :
    ∃ r t, newFileFinish parent newfile (320 * k) length old false grow (s.storeEntry newfile (320 * k)) = some (r, t) ∧
      Finishes s p k b newfile grow gs ((updiv length s.bs - 1) / 2) r t := by
  have hframe := SameFrame.entered s p k newfile grow true
  have hlist := entered_freeList hg hslot hk newfile grow
  have hb := (mem_freeList.mp (hfree ▸ List.mem_cons_self : b ∈ s.freeList)).1
  have h := (extendLoop_extends old (length + 1) (s.entered p k newfile grow true) length b (hframe.geometry hg)
    (Nat.lt_succ_self _) (hframe.blockCount ▸ hb) (hlist ▸ hpos)).2 gs (hlist.trans hfree)
  rw [hframe.bs] at h
  exact newFileFinish_finishes hp hstart h

end Finish

/-- A slot of the directory can be used again, also once the first free block is taken. -/
def Driver.Reuses (s : Fs) (p : ℕ) : Prop :=
  ∃ k ∈ (s.image.slots p).drop (s.image.copies p), s.free (s.entry k) = true ∧ (s.entry k).start ≠ s.firstFree

instance (s : Fs) (p : ℕ) : Decidable (s.Reuses p) := inferInstanceAs (Decidable (∃ k ∈ _, _ ∧ _))

def Driver.asks (s : Fs) (p length : ℕ) : ℕ :=
  let block_c := updiv length s.bs
  if s.Reuses p then 1 + block_c / 2
  else if s.FullDir p then 3 + block_c
  else if (s.entry p).len ≤ s.bs - sizeofDirEntry then 1 + max 1 block_c
  else 1 + block_c / 2

def Driver.backed (s : Fs) (p f : ℕ) : Fs :=
  ((s.allocated f).putFAT ((s.image.chain p).getLastD 0 : ℕ) f).addFree (-1)

/-- How `newFile` leaves an entry that it could place: in a slot used again, behind the last entry, or in a
block that is linked to the directory's last one. -/
inductive Stands (s : Fs) (p length : ℕ) (newfile : DirEntry) : NewFileResult → Fs → Prop
  | recycled {f k : ℕ} {fs : List ℕ} {t : Fs} (hfree : s.freeList = f :: fs) (hk : (s.allocated f).freedSlot p = some k)
      (henough : updiv length s.bs / 2 ≤ fs.length)
      (ht : Linked ((s.allocated f).entered p k (newfile.setStart f) false true) t f
        (fs.take (updiv length s.bs / 2))) :
      Stands s p length newfile ((s.allocated f).newResult p k (newfile.setStart f) false) t
  | appended {f : ℕ} {fs : List ℕ} {t : Fs} (hfree : s.freeList = f :: fs)
      (hreuses : ¬ s.Reuses p) (hroom : ¬ s.FullDir p)
      (henough : updiv length s.bs / 2 ≤ fs.length)
      (ht : Linked ((s.allocated f).entered p (s.endSlot p) (newfile.setStart f) true true) t f
        (fs.take (updiv length s.bs / 2))) :
      Stands s p length newfile ((s.allocated f).newResult p (s.endSlot p) (newfile.setStart f) true) t
  | expanded {f g : ℕ} {fs : List ℕ} {t : Fs} (hfree : s.freeList = f :: g :: fs) (hreuses : ¬ s.Reuses p)
      (hfull : s.FullDir p)
      (ht : Linked ((s.backed p f).entered p (f * s.image.epb) (newfile.setStart g) true true) t g
        (fs.take ((updiv length s.bs - 1) / 2))) :
      Stands s p length newfile ((s.backed p f).newResult p (f * s.image.epb) (newfile.setStart g) true) t

section Ends
variable {s : Fs} {p : ℕ}

theorem allocated_free (hg : Geometry s) {f : ℕ} (hf : f < s.blockCount) (hf0 : 0 < f) (e : DirEntry) :
    (s.allocated f).free e = (s.free e && e.start ≠ f) := by
  have hsmall := hg.blockCount_small
  have hcell : (s.allocated f).fat e.start = if e.start = f then toInt32 FINAL else s.fat e.start :=
    putFAT_cell s FINAL ⟨by omega, by omega⟩ (start_isBlock e)
  rw [Driver.free, Driver.free, hcell]
  by_cases he : e.start = f
  · have hfinal : toInt32 FINAL ≠ 0 := by decide
    have hne : e.start ≠ 0 := by omega
    simp [he, hfinal, hf0.ne']
  · simp [he]

theorem freedSlot_reuses (hw : WellFormed s) (hp : s.image.Live p) {f : ℕ} {fs : List ℕ}
    (hfree : s.freeList = f :: fs) : (s.allocated f).freedSlot p = none ↔ ¬ s.Reuses p := by
  have hmem : f ∈ s.freeList := hfree ▸ List.mem_cons_self
  have hf := (mem_freeList.mp hmem).1
  have hf0 : 0 < f := by
    have := (hw.free_data hmem).1
    omega
  rw [Driver.freedSlot, allocated_slots hw hfree hp, List.find?_eq_none, Driver.Reuses,
    firstFree_cons hw.geometry hfree]
  push Not
  apply forall₂_congr
  intro k hk
  have hslot := hw.image.slot_data hp (List.mem_of_mem_drop hk)
  rw [allocated_entry hw.geometry hf hslot, allocated_free hw.geometry hf hf0]
  simp

theorem backed_eq (s : Fs) (p f : ℕ) :
    s.backed p f = ((s.allocated f).putFAT ((s.image.chain p).getLastD 0 : ℕ) f).addFree (-1) := rfl

theorem SameFrame.backed (s : Fs) (p f : ℕ) : SameFrame s (s.backed p f) := ⟨rfl, rfl, rfl⟩

theorem chain_last_data (hw : WellFormed s) (hp : s.image.Live p) :
    s.image.IsData ((s.image.chain p).getLastD 0) := by
  rw [chain_getLastD hw hp]
  exact (hw.image.owns p hp).data _ (List.getLast_mem _)

theorem addFree_freeList (s : Fs) (n : ℤ) : (s.addFree n).freeList = s.freeList := rfl

theorem backed_freeList (hw : WellFormed s) (hp : s.image.Live p) {f : ℕ} {fs : List ℕ}
    (hfree : s.freeList = f :: fs) : (s.backed p f).freeList = fs := by
  have hf := (mem_freeList.mp (hfree ▸ List.mem_cons_self : f ∈ s.freeList)).1
  have hframe := (OnlyTable.allocated hw.geometry hf).frame
  have hlast := chain_last_data hw hp
  have hpos : (s.image.chain p).getLastD 0 ≠ 0 := (Nat.zero_le _).trans_lt hlast.1 |>.ne'
  have hf' : f < (s.allocated f).blockCount := by
    rw [hframe.blockCount]
    exact hf
  have hlt : (s.image.chain p).getLastD 0 < (s.allocated f).blockCount := by
    rw [hframe.blockCount]
    exact hlast.2
  rw [backed_eq, addFree_freeList, freeList_putFAT (hframe.geometry hw.geometry) hf' hlt hpos
    (allocated_used hw.geometry hf), allocated_freeList hw.geometry hfree]

theorem backed_entry (hw : WellFormed s) {f k : ℕ} (hf : f < s.blockCount) (hk : s.IsSlot k) :
    (s.backed p f).entry k = s.entry k := by
  have hframe := (OnlyTable.allocated hw.geometry hf).frame
  have hf' : f < (s.allocated f).blockCount := by
    rw [hframe.blockCount]
    exact hf
  rw [backed_eq, addFree_entry, putFAT_entry (hframe.geometry hw.geometry) hf' _ (hframe.isSlot.mpr hk),
    allocated_entry hw.geometry hf hk]

theorem newFilePlace_ends (hw : WellFormed s) {path : Str} {f : ℕ} {fs : List ℕ} (ht : Target s path p f fs)
    (hp : s.image.Live p) (parent : FindResult) (hparent : IsParent s p parent) (newfile : DirEntry)
    (length : ℕ) :
    ∃ r t, newFilePlace parent (newfile.setStart f) length f false (s.allocated f) = some (r, t) ∧
      (s.asks p length ≤ s.freeList.length → Stands s p length newfile r t) ∧
      (s.freeList.length < s.asks p length → r.status = -ENOSPC) := by
  have hg := hw.geometry
  have hmem : f ∈ s.freeList := ht.free ▸ List.mem_cons_self
  have hf := (mem_freeList.mp hmem).1
  have hslot := hw.image.live_data hp
  have honly := OnlyTable.allocated hg hf
  have hga := honly.frame.geometry hg
  have hentry := allocated_entry hg hf hslot
  have hrest := allocated_freeList hg ht.free
  have hbs : (s.allocated f).bs = s.bs := honly.frame.bs
  have hpa : IsParent (s.allocated f) p parent :=
    ⟨hparent.status, hparent.entry.trans hentry.symm, hparent.offset⟩
  have hslota : (s.allocated f).IsSlot p := honly.frame.isSlot.mpr hslot
  have hfa : f < (s.allocated f).blockCount := hf
  have hpos : ∀ c ∈ s.freeList, 0 < c := fun c hc => (Nat.zero_le _).trans_lt (hw.free_data hc).1
  have hposa : ∀ c ∈ (s.allocated f).freeList, 0 < c := fun c hc =>
    hpos c (ht.free ▸ List.mem_cons_of_mem _ (hrest ▸ hc))
  have hstart : ∀ b : ℕ, b < s.blockCount → (newfile.setStart b).start = b := fun b hb => by
    rw [DirEntry.setStart_start, hg.toInt32_block hb]
  have hlength : s.freeList.length = fs.length + 1 := by rw [ht.free, List.length_cons]
  have htaken : ∀ (k : ℕ) (grow : Bool), (s.allocated f).Takes k → ∃ r t,
      newFileFinish parent (newfile.setStart f) (320 * k) length f false grow
        ((s.allocated f).storeEntry (newfile.setStart f) (320 * k)) = some (r, t) ∧
        Finishes (s.allocated f) p k f (newfile.setStart f) grow fs (updiv length s.bs / 2) r t := by
    intro k grow hk
    have h := newFileFinish_taken hga hpa hslota hk hposa (hstart f hf) hfa (allocated_used hg hf) length f grow
    rwa [hrest, hbs] at h
  rw [newFilePlace_target hw ht hp (newfile.setStart f) length hparent]
  cases hk : (s.allocated f).freedSlot p with
  | some k =>
    have hreuses : s.Reuses p := by
      by_contra hno
      rw [(freedSlot_reuses hw hp ht.free).mpr hno] at hk
      cases hk
    have hasks : s.asks p length = 1 + updiv length s.bs / 2 := if_pos hreuses
    have hmemk := allocated_freedSlot hw ht.free hp hk
    obtain ⟨r, t, hrun, hfin⟩ := htaken k false
      (honly.frame.takes ⟨hw.image.slot_data hp (List.mem_of_mem_drop hmemk), child_behind hw hp hmemk⟩)
    refine ⟨r, t, hrun, fun henough => ?_, fun hfew => hfin.few (by omega)⟩
    obtain ⟨rfl, hlinked⟩ := hfin.enough (by omega)
    exact .recycled ht.free hk (by omega) hlinked
  | none =>
    have hno := (freedSlot_reuses hw hp ht.free).mp hk
    dsimp only
    by_cases hfd : s.FullDir p
    · have hasks : s.asks p length = 3 + updiv length s.bs := (if_neg hno).trans (if_pos hfd)
      rw [if_pos hfd, newFileExpand_target hw ht hp, hasks, hlength]
      cases fs with
      | nil => exact ⟨_, _, rfl, fun henough => absurd henough (by simp only [List.length_nil]; omega), fun _ => rfl⟩
      | cons g gs =>
        dsimp only
        by_cases hfew : gs.length + 1 < 2 + updiv length s.bs
        · rw [if_pos hfew]
          exact ⟨_, _, rfl, fun henough => absurd henough (by simp only [List.length_cons]; omega),
            fun _ => rfl⟩
        · have hframe := SameFrame.backed s p f
          have hback := backed_freeList hw hp ht.free
          have hbentry := backed_entry (p := p) hw hf hslot
          have hg' : g < s.blockCount := (mem_freeList.mp (ht.free ▸ by simp : g ∈ s.freeList)).1
          have hposb : ∀ c ∈ (s.backed p f).freeList, 0 < c := by
            rw [hback, ← hrest]
            exact hposa
          obtain ⟨r, t, hrun, hfin⟩ := newFileFinish_open (hframe.geometry hg)
            parent ⟨hparent.status, hparent.entry.trans hbentry.symm, hparent.offset⟩ (hframe.isSlot.mpr hslot)
            (hframe.takes (block_takes hw hmem)) hposb (hstart g hg') hback length f true
          rw [hframe.bs] at hfin
          rw [if_neg hfew, show (newfile.setStart f).setStart g = newfile.setStart g from rfl, ← backed_eq]
          refine ⟨r, t, hrun, fun _ => ?_, fun hshort => absurd hshort (by simp only [List.length_cons]; omega)⟩
          obtain ⟨rfl, hlinked⟩ := hfin.enough (by omega)
          exact .expanded ht.free hno hfd hlinked
    · obtain ⟨r, t, hrun, hfin⟩ := htaken (s.endSlot p) true
        (honly.frame.takes (endSlot_takes hw hp ht.directory hfd))
      have hstands : updiv length s.bs / 2 ≤ fs.length → Stands s p length newfile r t := by
        intro henough
        obtain ⟨rfl, hlinked⟩ := hfin.enough henough
        exact .appended ht.free hno hfd henough hlinked
      rw [if_neg hfd]
      by_cases hfirst : (s.entry p).len ≤ s.bs - sizeofDirEntry
      · have hasks : s.asks p length = 1 + max 1 (updiv length s.bs) :=
          (if_neg hno).trans ((if_neg hfd).trans (if_pos hfirst))
        rw [hasks, hlength]
        by_cases henough : fs ≠ [] ∧ updiv length s.bs ≤ fs.length
        · have hone := List.length_pos_of_ne_nil henough.1
          have hlen := henough.2
          rw [if_neg fun h => h.2 henough]
          exact ⟨r, t, hrun, fun _ => hstands (by omega), fun hshort => absurd hshort (by omega)⟩
        · have hshort : fs.length < max 1 (updiv length s.bs) := by
            by_contra hle
            have hone : 1 ≤ fs.length := (le_max_left _ _).trans (not_lt.mp hle)
            exact henough ⟨List.ne_nil_of_length_pos hone, (le_max_right _ _).trans (not_lt.mp hle)⟩
          rw [if_pos ⟨hfirst, henough⟩]
          exact ⟨_, _, rfl, fun hle => absurd hle (by omega), fun _ => rfl⟩
      · have hasks : s.asks p length = 1 + updiv length s.bs / 2 :=
          (if_neg hno).trans ((if_neg hfd).trans (if_neg hfirst))
        rw [hasks, hlength, if_neg fun h => hfirst h.1]
        exact ⟨r, t, hrun, fun hle => hstands (by omega), fun hshort => hfin.few (by omega)⟩

theorem newFile_ends (hw : WellFormed s) {path : Str}
    (hstay : s.image.StaysLive s.image.rootSlot (pathNames path).dropLast) (hl : s.lookupParent path = .ok p)
    (hd : (s.entry p).isDirectory) (hshort : (lastName path).length ≤ THORNFAT_PATH_MAX) (length : ℕ)
    (type : FileType)
    (times : Option Times) : ∃ r t, newFile path length type times false s = some (r, t) ∧
      (s.load.asks p length ≤ s.load.freeList.length →
        Stands s.load p length ((newEntry length type times).setName (lastName path)) r t) ∧
      (s.load.freeList.length < s.load.asks p length → r.status = -ENOSPC) := by
  have hp : s.load.image.Live p := hstay.walkDirs .root hl
  rw [run_newFile_found hw hstay hl hshort]
  cases hfree : s.load.freeList with
  | nil =>
    have hone : 1 ≤ s.load.asks p length := by
      unfold Driver.asks
      dsimp only
      split_ifs <;> omega
    refine ⟨_, _, rfl, fun h => ?_, fun _ => rfl⟩
    rw [List.length_nil] at h
    omega
  | cons f fs =>
    have ht : Target s.load path p f fs := ⟨hl, hshort, hd, hfree⟩
    have h := newFilePlace_ends hw.load ht hp (s.found (lastName path) (.ok p)) ⟨rfl, rfl, rfl⟩
      ((newEntry length type times).setName (lastName path)) length
    rw [hfree] at h
    exact h

end Ends

end Thorn.FatDriver

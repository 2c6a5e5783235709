import Thorn.FatRead

set_option autoImplicit false

namespace Thorn.FatDriver
open ByteStore Paths FatTypes FatOperations FatImage LinkedChain

def Driver.pokes (s : Fs) (ps : List (ℕ × List UInt8)) : Fs := ps.foldl (fun s p => s.poke p.1 p.2) s

def Driver.clearCells (s : Fs) (l : List ℕ) : Fs := l.foldl (fun s b => s.putFAT 0 b) s

def Driver.extend (s : Fs) (b : ℕ) : List ℕ → Fs
  | [] => s
  | f :: fs => ((s.putFAT f b).putFAT FINAL f).extend f fs

/-- The writes of `zeroOutFree`: one linear run, in chunks. -/
def zeroRun (position : ℕ) : ℕ → ℕ → List (ℕ × List UInt8)
  | 0, _ => []
  | fuel + 1, diff =>
    if zeroChunk ≤ diff then
      (position, List.replicate zeroChunk 0) :: zeroRun (position + zeroChunk) fuel (diff - zeroChunk)
    else if 0 < diff then [(position, List.replicate diff 0)] else []

/-- A relation between the states before and after that no single change of the table leaves: `G` is what it
asks of the state before, `C` says which cells may be set to what. -/
structure TableRule (R : Fs → Fs → Prop) (G : Fs → Prop) (C : Fs → ℕ → ℤ → Prop) : Prop where
  refl (s : Fs) : R s s
  trans {s t u : Fs} : R s t → R t u → R s u
  keeps {s t : Fs} : R s t → G s → G t
  cell {s t : Fs} {b : ℕ} {v : ℤ} : R s t → C s b v → C t b v
  addFree (s : Fs) (n : ℤ) : R s (s.addFree n)
  putFAT {s : Fs} {b : ℕ} {v : ℤ} : G s → C s b v → R s (s.putFAT v b)

namespace TableRule
variable {R : Fs → Fs → Prop} {G : Fs → Prop} {C : Fs → ℕ → ℤ → Prop} {s : Fs}

theorem clearCells (h : TableRule R G C) (hs : G s) {l : List ℕ} (hl : ∀ b ∈ l, C s b 0) :
    R s (s.clearCells l) := by
  induction l generalizing s with
  | nil => exact h.refl s
  | cons b l ih =>
    have hput := h.putFAT hs (hl b List.mem_cons_self)
    exact h.trans hput (ih (h.keeps hput hs) fun c hc => h.cell hput (hl c (List.mem_cons_of_mem _ hc)))

theorem extend (h : TableRule R G C) (hs : G s) {b : ℕ} {fs : List ℕ} (hb : ∀ v, C s b v)
    (hfs : ∀ f ∈ fs, ∀ v, C s f v) : R s (s.extend b fs) := by
  induction fs generalizing s b with
  | nil => exact h.refl s
  | cons f fs ih =>
    have hf := hfs f List.mem_cons_self
    have hlink := h.putFAT hs (hb f)
    have hlast := h.putFAT (h.keeps hlink hs) (h.cell hlink (hf FINAL))
    have hboth := h.trans hlink hlast
    exact h.trans hboth (ih (h.keeps hboth hs) (fun v => h.cell hboth (hf v))
      fun c hc v => h.cell hboth (hfs c (List.mem_cons_of_mem _ hc) v))

end TableRule

section Frames
variable {s : Fs}

theorem SameFrame.pokes (s : Fs) (ps : List (ℕ × List UInt8)) : SameFrame s (s.pokes ps) := by
  induction ps generalizing s with
  | nil => exact .refl s
  | cons p ps ih => exact (SameFrame.poke s p.1 p.2).trans (ih _)

theorem SameFrame.tableRule : TableRule SameFrame (fun _ => True) fun _ _ _ => True where
  refl := .refl
  trans := .trans
  keeps _ _ := trivial
  cell _ _ := trivial
  addFree := .addFree
  putFAT _ _ := .putFAT _ _ _

theorem SameFrame.clearCells (s : Fs) (l : List ℕ) : SameFrame s (s.clearCells l) :=
  tableRule.clearCells trivial fun _ _ => trivial

theorem SameFrame.extend (s : Fs) (b : ℕ) (fs : List ℕ) : SameFrame s (s.extend b fs) :=
  tableRule.extend trivial (fun _ => trivial) fun _ _ _ => trivial

theorem SameFrame.refresh (s : Fs) (e : DirEntry) : SameFrame s (s.refresh e) := by
  unfold Driver.refresh
  split_ifs
  · exact ⟨rfl, rfl, rfl⟩
  · exact .refl s

theorem SameFrame.storeEntry (s : Fs) (e : DirEntry) (o : ℕ) : SameFrame s (s.storeEntry e o) := by
  unfold Driver.storeEntry
  split_ifs
  · exact ((SameFrame.poke s _ _).trans (SameFrame.poke _ _ _)).trans (SameFrame.refresh _ _)
  · exact (SameFrame.poke s _ _).trans (SameFrame.refresh _ _)

theorem pokes_data (s : Fs) (ps : List (ℕ × List UInt8))
    (h : ∀ p ∈ ps, s.partition.offset + p.1 < 2 ^ 64) : (s.pokes ps).data = patches s.data ps := by
  induction ps generalizing s with
  | nil => rfl
  | cons p ps ih =>
    obtain ⟨o, l⟩ := p
    rw [patches_cons, ← poke_data s o l (h (o, l) (by simp))]
    exact ih (s.poke o l) fun q hq => h q (by simp [hq])

theorem pokes_records (s : Fs) (ps : List (ℕ × List UInt8)) :
    (s.pokes ps).partition.writeRecords =
      s.partition.writeRecords ++ ps.map fun p => ⟨p.2.length, p.1⟩ := by
  induction ps generalizing s with
  | nil => simp [Driver.pokes]
  | cons p ps ih =>
    have h := ih (s.poke p.1 p.2)
    rw [poke_writeRecords, List.append_assoc] at h
    exact h

@[simp] theorem pokes_root (s : Fs) (ps : List (ℕ × List UInt8)) : (s.pokes ps).root = s.root := by
  induction ps generalizing s with
  | nil => rfl
  | cons p ps ih => exact ih (s.poke p.1 p.2)

@[simp] theorem pokes_blocksFree (s : Fs) (ps : List (ℕ × List UInt8)) :
    (s.pokes ps).blocksFree = s.blocksFree := by
  induction ps generalizing s with
  | nil => rfl
  | cons p ps ih => exact ih (s.poke p.1 p.2)

end Frames

section Store
variable {s : Fs}

theorem refresh_partition (s : Fs) (e : DirEntry) : (s.refresh e).partition = s.partition := by
  unfold Driver.refresh
  split_ifs <;> rfl

theorem refresh_data (s : Fs) (e : DirEntry) : (s.refresh e).data = s.data := by
  unfold Driver.refresh
  split_ifs <;> rfl

theorem refresh_image (s : Fs) (e : DirEntry) : (s.refresh e).image = s.image := by
  unfold Driver.refresh
  split_ifs <;> rfl

theorem refresh_fat (s : Fs) (e : DirEntry) :
    (s.refresh e).fat = s.fat := congrArg Image.fat (refresh_image s e)

theorem refresh_entry (s : Fs) (e : DirEntry) : (s.refresh e).entry = s.entry :=
  congrArg Image.entry (refresh_image s e)

theorem refresh_blocksFree (s : Fs) (e : DirEntry) : (s.refresh e).blocksFree = s.blocksFree := by
  unfold Driver.refresh
  split_ifs <;> rfl

/-- The entries `writeEntry` writes: one, and for the root its `..` as well. -/
def Driver.putEntries (s : Fs) (k : ℕ) (e : DirEntry) : Fs :=
  if k = s.image.rootSlot then (s.putEntry k e).putEntry (k + 1) (e.setName dotDotName) else s.putEntry k e

theorem storeEntry_eq (hg : Geometry s) (e : DirEntry) (k : ℕ) :
    s.storeEntry e (320 * k) = (s.putEntries k e).refresh e := by
  have hd := hg.data_start
  have hlen := hg.length
  have hroot : 320 * s.image.rootSlot = (s.fatBlocks + 1) * s.bs := by
    rw [← hg.epb_mul, Image.rootSlot, Image.startBlock, Driver.image]
    ring
  rw [Driver.storeEntry, root_offset hg, Driver.putEntries]
  by_cases hk : k = s.image.rootSlot
  · have hnext : (320 * k + sizeofDirEntry) % 2 ^ 64 = 320 * (k + 1) := by
      rw [Nat.mod_eq_of_lt (by rw [hk, hroot, show sizeofDirEntry = 320 from rfl]; omega)]
      rfl
    rw [if_pos (by rw [hk]), if_pos hk, hnext]
    rfl
  · rw [if_neg (by omega), if_neg hk]
    rfl

theorem SameFrame.putEntry (s : Fs) (k : ℕ) (e : DirEntry) : SameFrame s (s.putEntry k e) := .poke s _ _

theorem root_isSlot (hg : Geometry s) {i : ℕ} (hi : i < s.image.epb) : s.IsSlot (s.image.rootSlot + i) := by
  have hq : (s.image.rootSlot + i) / s.image.epb = s.image.startBlock := by
    rw [Image.rootSlot, Nat.add_comm, Nat.add_mul_div_right _ _ hg.epb_pos, Nat.div_eq_of_lt hi, Nat.zero_add]
  rw [Driver.IsSlot, hq]
  exact ⟨Nat.lt_succ_self _, hg.inside⟩

theorem putEntries_cases (hg : Geometry s) (k : ℕ) (e : DirEntry) :
    s.putEntries k e = s.putEntry k e ∨ k = s.image.rootSlot ∧ s.IsSlot (k + 1) ∧
      s.putEntries k e = (s.putEntry k e).putEntry (k + 1) (e.setName dotDotName) := by
  unfold Driver.putEntries
  split_ifs with hk
  · exact .inr ⟨hk, hk ▸ root_isSlot hg hg.two_le_epb, rfl⟩
  · exact .inl rfl

theorem SameFrame.putEntries (s : Fs) (k : ℕ) (e : DirEntry) : SameFrame s (s.putEntries k e) := by
  unfold Driver.putEntries
  split_ifs
  · exact (SameFrame.putEntry s k e).trans (.putEntry _ _ _)
  · exact .putEntry s k e

theorem storeEntry_fat (hg : Geometry s) {k : ℕ} (hk : s.IsSlot k) (e : DirEntry) {b : ℕ}
    (hb : b < s.blockCount) : (s.storeEntry e (320 * k)).fat b = s.fat b := by
  rw [storeEntry_eq hg, refresh_fat]
  rcases putEntries_cases hg k e with h | ⟨-, hk1, h⟩
  · rw [h, putEntry_fat hg hk e hb]
  · have hframe := SameFrame.putEntry s k e
    rw [h, putEntry_fat (hframe.geometry hg) (hframe.isSlot.mpr hk1) _ (hframe.blockCount ▸ hb),
      putEntry_fat hg hk e hb]

theorem storeEntry_entry (hg : Geometry s) {k : ℕ} (hk : s.IsSlot k) (e : DirEntry) (j : ℕ) :
    (s.storeEntry e (320 * k)).entry j = if j = k then e
      else if k = s.image.rootSlot ∧ j = k + 1 then e.setName dotDotName else s.entry j := by
  rw [storeEntry_eq hg, refresh_entry]
  by_cases hroot : k = s.image.rootSlot
  · have hk1 : s.IsSlot (k + 1) := hroot ▸ root_isSlot hg hg.two_le_epb
    have hframe := SameFrame.putEntry s k e
    rw [Driver.putEntries, if_pos hroot, putEntry_entry (hframe.geometry hg) (hframe.isSlot.mpr hk1),
      putEntry_entry hg hk]
    by_cases hj : j = k
    · rw [if_neg (by omega), if_pos hj, if_pos hj]
    · by_cases hj1 : j = k + 1
      · rw [if_pos hj1, if_neg hj, if_pos ⟨hroot, hj1⟩]
      · rw [if_neg hj1, if_neg hj, if_neg hj, if_neg (by tauto)]
  · rw [Driver.putEntries, if_neg hroot, putEntry_entry hg hk]
    simp only [hroot, false_and, ite_false]

theorem storeEntry_block (hg : Geometry s) {k : ℕ} (hk : s.IsSlot k) (e : DirEntry) {b : ℕ}
    (hb : k / s.image.epb ≠ b) : (s.storeEntry e (320 * k)).block b = s.block b := by
  have hblock : ∀ t : Fs, (t.refresh e).block b = t.block b := fun t => by
    rw [Driver.block, Driver.block, refresh_data]
    unfold Driver.refresh
    split_ifs <;> rfl
  rw [storeEntry_eq hg, hblock]
  by_cases hroot : k = s.image.rootSlot
  · have hk1 : s.IsSlot (k + 1) := hroot ▸ root_isSlot hg hg.two_le_epb
    have hframe := SameFrame.putEntry s k e
    have hsame : (k + 1) / s.image.epb = k / s.image.epb := by
      have h2 := hg.two_le_epb
      rw [hroot, Image.rootSlot, Nat.mul_div_cancel _ hg.epb_pos, Nat.add_comm,
        Nat.add_mul_div_right _ _ hg.epb_pos, Nat.div_eq_of_lt (by omega), Nat.zero_add]
    rw [Driver.putEntries, if_pos hroot, putEntry_block (hframe.geometry hg) (hframe.isSlot.mpr hk1) _
      (by rw [hframe.epb, hsame]; exact hb), putEntry_block hg hk e hb]
  · rw [Driver.putEntries, if_neg hroot, putEntry_block hg hk e hb]

theorem storeEntry_owns (hg : Geometry s) {k : ℕ} (hk : s.IsSlot k) (e : DirEntry) {e' e'' : DirEntry}
    {l : List ℕ} (h : s.image.Owns e' l) (hs : e''.start = e'.start) :
    (s.storeEntry e (320 * k)).image.Owns e'' l := by
  refine h.congr hs (fun b hb => ?_) fun b hb => ?_
  · rw [image_fat, image_fat, storeEntry_fat hg hk e (h.data b hb).2]
  · exact (SameFrame.storeEntry s e _).isData.mpr (h.data b hb)

end Store

section Links
variable {s : Fs}

theorem chain_putFAT (hg : Geometry s) {a b : ℕ} {l : List ℕ} (v : ℤ)
    (h : Chain s.image.next s.image.Final a l) (hd : ∀ x ∈ l, s.image.IsData x) (hb : b < s.blockCount)
    (hbl : b ∉ l) : Chain (s.putFAT v b).image.next (s.putFAT v b).image.Final a l := by
  have hf : ∀ x ∈ l, (s.putFAT v b).fat x = s.fat x := fun x hx => by
    rw [putFAT_fat hg hb (hd x hx).2, if_neg fun he : x = b => hbl (he ▸ hx)]
  exact h.congr (fun x hx => Image.next_congr (hf x hx)) fun x hx hF => (hf x hx).trans hF

/-- Clearing a chain while walking it: the links ahead are still there. -/
theorem run_forgetLoop (hg : Geometry s) {b : ℕ} {l : List ℕ} (hc : Chain s.image.next s.image.Final b l)
    (hd : ∀ x ∈ l, s.image.IsData x) (fuel removed : ℕ) (hfuel : l.length ≤ fuel) :
    forgetLoop fuel b removed s = some (removed + l.length, s.clearCells l) := by
  induction l generalizing s b fuel removed with
  | nil => exact absurd rfl hc.ne_nil
  | cons a l ih =>
    have hnd := hc.nodup Image.next_excl
    obtain ⟨fuel, rfl⟩ : ∃ m, fuel = m + 1 := ⟨fuel - 1, by simp only [List.length_cons] at hfuel; omega⟩
    have had := hd a (by simp)
    cases hc with
    | last hf =>
      have hfat : s.fat a = FINAL := hf
      rw [forgetLoop, run_bind, run_readFAT, Option.bind_some, run_ite, if_pos hfat, run_bind,
        run_writeFAT, Option.bind_some, run_pure]
      rfl
    | @link _ c _ hn t =>
      have hfat := fat_of_next hn
      have hcd := (hd c (by simp [t.head_mem])).1
      have hnf : (c : ℤ) ≠ FINAL := by
        simp only [FINAL, ne_eq]
        omega
      have hframe := SameFrame.putFAT s 0 a
      have hrest := ih (hframe.geometry hg) (chain_putFAT hg 0 t (fun x hx => hd x (by simp [hx])) had.2
        (List.nodup_cons.mp hnd).1) (fun x hx => hframe.isData.mpr (hd x (by simp [hx]))) fuel (removed + 1)
        (by simpa using hfuel)
      rw [forgetLoop, run_bind, run_readFAT, Option.bind_some, hfat, run_ite, if_neg hnf, run_ite,
        if_pos (by omega), run_bind, run_writeFAT, Option.bind_some, hrest, List.length_cons,
        Nat.add_assoc, Nat.add_comm 1]
      rfl

theorem length_le_fuel (hg : Geometry s) {e : DirEntry} {l : List ℕ} (h : s.image.Owns e l) :
    l.length ≤ walkFuel s.superblock := by
  have h₁ : l.length ≤ s.blockCount := h.length_le
  have h₂ := hg.blockCount_small
  unfold walkFuel
  omega

theorem run_forget (hg : Geometry s) {e : DirEntry} {l : List ℕ} (h : s.image.Owns e l) :
    forget e.start s = some (l.length, (s.clearCells l).addFree l.length) := by
  obtain ⟨b, hb, hc⟩ := h.start
  rw [forget, run_bind, run_get, Option.bind_some, run_bind, hb,
    run_forgetLoop hg hc h.data _ _ (length_le_fuel hg h), Option.bind_some]
  simp only [Nat.zero_add, run_bind, run_addBlocksFree, Option.bind_some, run_pure]
  rfl

theorem run_chainLengthLoop {b : ℕ} {l : List ℕ}
    (hc : Chain s.image.next s.image.Final b l) (hd : ∀ x ∈ l, s.image.IsData x) (fuel length : ℕ)
    (hfuel : l.length ≤ fuel) : chainLengthLoop fuel b length s = some (length + l.length, s) := by
  induction hc generalizing fuel length with
  | @last b hf =>
    obtain ⟨fuel, rfl⟩ : ∃ m, fuel = m + 1 := ⟨fuel - 1, by simp only [List.length_singleton] at hfuel; omega⟩
    have hfat : s.fat b = FINAL := hf
    rw [chainLengthLoop, run_bind, run_readFAT, Option.bind_some, hfat]
    rfl
  | @link b c l hn t ih =>
    obtain ⟨fuel, rfl⟩ : ∃ m, fuel = m + 1 := ⟨fuel - 1, by simp only [List.length_cons] at hfuel; omega⟩
    have hfat := fat_of_next hn
    have hcd := (hd c (by simp [t.head_mem])).1
    rw [chainLengthLoop, run_bind, run_readFAT, Option.bind_some, hfat, run_ite, if_neg (by omega), run_ite,
      if_neg (by omega), ih (fun x hx => hd x (by simp [hx])) fuel (length + 1) (by simpa using hfuel),
      List.length_cons, Nat.add_assoc, Nat.add_comm 1]

theorem run_chainLength (hg : Geometry s) {e : DirEntry} {l : List ℕ} (h : s.image.Owns e l) :
    chainLength e.start s = some (l.length, s) := by
  obtain ⟨b, hb, hc⟩ := h.start
  have hne := h.fat_ne_zero b hc.head_mem
  rw [image_fat] at hne
  rw [chainLength, run_bind, run_get, Option.bind_some, run_bind, run_readFAT, Option.bind_some, hb, run_ite,
    if_neg hne, run_chainLengthLoop hc h.data _ _ (length_le_fuel hg h), Nat.zero_add]

theorem run_tailLoop {b : ℕ} {l : List ℕ} (hc : Chain s.image.next s.image.Final b l)
    (hd : ∀ x ∈ l, s.image.IsData x) (fuel : ℕ) (hfuel : l.length ≤ fuel) :
    tailLoop fuel b s = some ((l.getLast hc.ne_nil : ℤ), s) := by
  induction hc generalizing fuel with
  | @last b hf =>
    obtain ⟨fuel, rfl⟩ : ∃ m, fuel = m + 1 := ⟨fuel - 1, by simp only [List.length_singleton] at hfuel; omega⟩
    have hfat : s.fat b = FINAL := hf
    rw [tailLoop, run_bind, run_readFAT, Option.bind_some, hfat]
    rfl
  | @link b c l hn t ih =>
    obtain ⟨fuel, rfl⟩ : ∃ m, fuel = m + 1 := ⟨fuel - 1, by simp only [List.length_cons] at hfuel; omega⟩
    have hfat := fat_of_next hn
    have hcd := (hd c (by simp [t.head_mem])).1
    rw [tailLoop, run_bind, run_readFAT, Option.bind_some, hfat, run_ite, if_neg (by omega),
      ih (fun x hx => hd x (by simp [hx])) fuel (by simpa using hfuel)]
    simp only [List.getLast_cons t.ne_nil]

theorem run_noteBlocks {b : ℕ} {l : List ℕ} (hc : Chain s.image.next s.image.Final b l) :
    noteBlocks l.length b s = some (l.map fun x : ℕ => (x : ℤ), s) := by
  induction hc with
  | @last b hf =>
    simp only [List.length_singleton, noteBlocks, run_bind, run_readFAT, Option.bind_some, run_pure]
    rfl
  | @link b c l hn t ih =>
    have hfat := fat_of_next hn
    simp only [List.length_cons, noteBlocks, run_bind, run_readFAT, Option.bind_some, hfat, ih, run_pure,
      List.map_cons]

theorem clearCells_addFree (s : Fs) (l : List ℕ) (n : ℤ) :
    (s.addFree n).clearCells l = (s.clearCells l).addFree n := by
  induction l generalizing s with
  | nil => rfl
  | cons b l ih => exact ih (s.putFAT 0 b)

theorem run_freeBlocks (l : List ℕ) (s : Fs) :
    freeBlocks (l.map fun x : ℕ => (x : ℤ)) s = some ((), (s.clearCells l).addFree l.length) := by
  induction l generalizing s with
  | nil => simp [freeBlocks, Driver.clearCells]
  | cons b l ih =>
    have h := ih ((s.putFAT 0 b).addFree 1)
    rw [clearCells_addFree, addFree_addFree] at h
    simp only [List.map_cons, freeBlocks, run_bind, run_writeFAT, run_addBlocksFree, Option.bind_some]
    rw [List.length_cons, Nat.cast_add, Nat.cast_one, add_comm (l.length : ℤ)]
    exact h

structure OnlyTable (s t : Fs) : Prop where
  frame : SameFrame s t
  root : t.root = s.root
  slice : ∀ q n, (s.fatBlocks + 1) * s.bs ≤ q → slice t.data q n = slice s.data q n

namespace OnlyTable
variable {t u : Fs}

theorem refl (s : Fs) : OnlyTable s s := ⟨.refl s, rfl, fun _ _ _ => rfl⟩

theorem trans (h : OnlyTable s t) (h' : OnlyTable t u) : OnlyTable s u where
  frame := h.frame.trans h'.frame
  root := h'.root.trans h.root
  slice q n hq := by
    rw [h'.slice q n (by rw [h.frame.fatBlocks, h.frame.bs]; exact hq), h.slice q n hq]

theorem putFAT (hg : Geometry s) (v : ℤ) {b : ℕ} (hb : b < s.blockCount) : OnlyTable s (s.putFAT v b) :=
  ⟨.putFAT s v b, rfl, fun _ _ hq => putFAT_slice hg hb v hq⟩

theorem addFree (s : Fs) (n : ℤ) : OnlyTable s (s.addFree n) := ⟨.addFree s n, rfl, fun _ _ _ => rfl⟩

theorem entry (h : OnlyTable s t) (hg : Geometry s) {k : ℕ} (hk : s.IsSlot k) : t.entry k = s.entry k := by
  rw [entry_eq, entry_eq, h.slice _ _ ((data_range hg hk).1.trans (slot_range hg k).1)]

theorem block (h : OnlyTable s t) (hg : Geometry s) {b : ℕ} (hb : s.image.IsData b) :
    blockAt t.data s.bs b = blockAt s.data s.bs b := h.slice _ _ (data_range hg hb).1

theorem gather (h : OnlyTable s t) (hg : Geometry s) {l : List ℕ} (hl : ∀ b ∈ l, s.image.IsData b) :
    gather t.data s.bs l = gather s.data s.bs l := gather_congr _ _ _ _ fun b hb => h.block hg (hl b hb)

theorem tableRule : TableRule OnlyTable Geometry fun s b _ => b < s.blockCount where
  refl := refl
  trans := trans
  keeps h := h.frame.geometry
  cell h hb := h.frame.blockCount ▸ hb
  addFree := addFree
  putFAT hg hb := putFAT hg _ hb

theorem clearCells (hg : Geometry s) {l : List ℕ} (hl : ∀ b ∈ l, b < s.blockCount) :
    OnlyTable s (s.clearCells l) := tableRule.clearCells hg hl

theorem extend (hg : Geometry s) {b : ℕ} {l : List ℕ} (hb : b < s.blockCount) (hl : ∀ c ∈ l, c < s.blockCount) :
    OnlyTable s (s.extend b l) := tableRule.extend hg (fun _ => hb) fun c hc _ => hl c hc

end OnlyTable

theorem clearCells_fat (hg : Geometry s) {l : List ℕ} (hl : ∀ b ∈ l, b < s.blockCount) {c : ℕ}
    (hc : c < s.blockCount) : (s.clearCells l).fat c = if c ∈ l then 0 else s.fat c := by
  induction l generalizing s with
  | nil => rfl
  | cons b l ih =>
    have hframe := SameFrame.putFAT s 0 b
    have hrest := ih (hframe.geometry hg) (fun c hc => hframe.blockCount ▸ hl c (by simp [hc]))
      (hframe.blockCount ▸ hc)
    refine hrest.trans ?_
    rw [putFAT_fat hg (hl b (by simp)) hc]
    by_cases hcb : c = b
    · subst hcb
      simp [toInt32]
    · simp [hcb]

theorem putFAT_block_fat (hg : Geometry s) {b c f : ℕ} (hb : b < s.blockCount) (hc : c < s.blockCount)
    (hf : f < s.blockCount) : (s.putFAT f b).fat c = if c = b then (f : ℤ) else s.fat c := by
  rw [putFAT_fat hg hb hc, hg.toInt32_block hf]

theorem putFAT_final_fat (hg : Geometry s) {b c : ℕ} (hb : b < s.blockCount) (hc : c < s.blockCount) :
    (s.putFAT FINAL b).fat c = if c = b then FINAL else s.fat c := putFAT_fat hg hb hc FINAL

theorem mem_freeList {b : ℕ} : b ∈ s.freeList ↔ b < s.blockCount ∧ s.fat b = 0 := by
  simp [Driver.freeList]

theorem freeList_nodup (s : Fs) : s.freeList.Nodup := List.nodup_range.filter _

theorem WellFormed.free_data (hw : WellFormed s) {b : ℕ} (hb : b ∈ s.freeList) : s.image.IsData b := by
  obtain ⟨h₁, h₂⟩ := mem_freeList.mp hb
  refine ⟨?_, h₁⟩
  by_contra hle
  have hr := hw.image.reserved b (Nat.le_of_not_lt hle)
  rw [image_fat, h₂] at hr
  exact absurd hr (by decide)

theorem freeList_tail {t : Fs} {f : ℕ} {fs : List ℕ} (h : s.freeList = f :: fs)
    (hbc : t.blockCount = s.blockCount)
    (ht : ∀ c : ℕ, c < s.blockCount → (t.fat c = 0 ↔ s.fat c = 0 ∧ c ≠ f)) : t.freeList = fs := by
  have hfilter : t.freeList = s.freeList.filter fun c => c ≠ f := by
    unfold Driver.freeList
    rw [List.filter_filter, show t.superblock.blockCount = s.superblock.blockCount from hbc]
    refine List.filter_congr fun c hc => ?_
    have hiff := ht c (List.mem_range.mp hc)
    rw [Bool.eq_iff_iff]
    simp [hiff, and_comm]
  have hnd := freeList_nodup s
  rw [h] at hfilter hnd
  rw [hfilter, List.filter_cons_of_neg (by simp)]
  exact List.filter_eq_self.mpr fun c hc => by
    have hne : c ≠ f := fun he => (List.nodup_cons.mp hnd).1 (he ▸ hc)
    simpa using hne

end Links

section Allocate
variable {s : Fs}

theorem firstFree_cons (hg : Geometry s) {f : ℕ} {fs : List ℕ} (h : s.freeList = f :: fs) :
    s.firstFree = f := by
  have hf := (mem_freeList.mp (h ▸ List.mem_cons_self : f ∈ s.freeList)).1
  rw [Driver.firstFree, h]
  exact hg.toInt32_block hf

theorem freeList_link (hg : Geometry s) {b f : ℕ} {fs : List ℕ} (h : s.freeList = f :: fs)
    (hb : b < s.blockCount) (hb0 : s.fat b ≠ 0) (hf0 : 0 < f) :
    ((s.putFAT f b).putFAT FINAL f).freeList = fs := by
  have hf := (mem_freeList.mp (h ▸ List.mem_cons_self : f ∈ s.freeList))
  have hframe := SameFrame.putFAT s f b
  refine freeList_tail h rfl fun c hc => ?_
  rw [putFAT_final_fat (hframe.geometry hg) (hframe.blockCount ▸ hf.1) (hframe.blockCount ▸ hc),
    putFAT_block_fat hg hb hc hf.1]
  by_cases hcf : c = f
  · simp [hcf, FINAL]
  · by_cases hcb : c = b
    · subst hcb
      simp only [hcf, ite_false, ite_true, Nat.cast_eq_zero, hb0, false_and, iff_false]
      omega
    · simp [hcf, hcb]

theorem run_addBlocks (hg : Geometry s) (n b : ℕ) (hb : b < s.blockCount) (hb0 : s.fat b ≠ 0)
    (hfree : ∀ f ∈ s.freeList, 0 < f) (hn : n ≤ s.freeList.length) :
    addBlocks n b s = some (0, s.extend b (s.freeList.take n)) := by
  induction n generalizing s b with
  | zero => rfl
  | succ n ih =>
    obtain ⟨f, fs, h⟩ : ∃ f fs, s.freeList = f :: fs :=
      List.exists_cons_of_ne_nil (fun h => by simp [h] at hn)
    have hf := (mem_freeList.mp (h ▸ List.mem_cons_self : f ∈ s.freeList))
    have hf0 := hfree f (h ▸ List.mem_cons_self)
    have hframe := (SameFrame.putFAT s f b).trans (SameFrame.putFAT (s.putFAT f b) FINAL f)
    have hnext := freeList_link hg h hb hb0 hf0
    have hg₁ := (SameFrame.putFAT s f b).geometry hg
    have hfin : ((s.putFAT f b).putFAT FINAL f).fat f ≠ 0 := by
      rw [putFAT_final_fat hg₁ hf.1 hf.1, if_pos rfl]
      decide
    have hrest := ih (hframe.geometry hg) f (hframe.blockCount ▸ hf.1) hfin
      (fun c hc => hfree c (h ▸ List.mem_cons_of_mem _ (hnext ▸ hc)))
      (by rw [hnext]; rw [h, List.length_cons] at hn; omega)
    rw [hnext] at hrest
    have hne : (f : ℤ) ≠ -1 := by omega
    rw [addBlocks, run_bind, run_findFreeBlock, Option.bind_some, firstFree_cons hg h, run_ite, if_neg hne]
    simp only [run_bind, run_writeFAT, Option.bind_some, hrest, h, List.take_succ_cons]
    rfl

theorem owns_extend (hg : Geometry s) {e : DirEntry} {l fs : List ℕ} (h : s.image.Owns e l)
    (hfs : ∀ f ∈ fs, s.image.IsData f) (hnd : (l ++ fs).Nodup) :
    (s.extend (l.getLast h.ne_nil) fs).image.Owns e (l ++ fs) := by
  induction fs generalizing s l with
  | nil =>
    rw [List.append_nil]
    exact h
  | cons f fs ih =>
    have hb := h.data _ (List.getLast_mem h.ne_nil)
    have hf := hfs f (by simp)
    have hframe₁ := SameFrame.putFAT s f (l.getLast h.ne_nil)
    have hframe := hframe₁.trans (SameFrame.putFAT _ FINAL f)
    have hg₁ := hframe₁.geometry hg
    have hdisj := (List.nodup_append.mp hnd).2.2
    have hfat : ∀ c < s.blockCount, ((s.putFAT f (l.getLast h.ne_nil : ℕ)).putFAT FINAL f).fat c =
        if c = f then FINAL else if c = l.getLast h.ne_nil then (f : ℤ) else s.fat c := fun c hc => by
      rw [putFAT_final_fat hg₁ (hframe₁.blockCount ▸ hf.2) (hframe₁.blockCount ▸ hc),
        putFAT_block_fat hg hb.2 hc hf.2]
    have hlf : ∀ c ∈ l, c ≠ f := fun c hc he => hdisj c hc f (by simp) he
    have howns : ((s.putFAT f (l.getLast h.ne_nil : ℕ)).putFAT FINAL f).image.Owns e (l ++ [f]) := by
      refine h.concat ?_ ?_ ?_ ?_ ?_
      · have := hf.1
        omega
      · rw [image_fat, hfat _ hb.2, if_neg (hlf _ (List.getLast_mem h.ne_nil)), if_pos rfl]
      · rw [image_fat, hfat f hf.2, if_pos rfl]
      · intro c hc
        have hcl := List.mem_of_mem_dropLast hc
        have hne : c ≠ l.getLast h.ne_nil := by
          have hl := (List.nodup_append.mp hnd).1
          rw [← List.dropLast_append_getLast h.ne_nil] at hl
          exact fun he => (List.nodup_append.mp hl).2.2 c hc _ (by simp) he
        rw [image_fat, image_fat, hfat c (h.data c hcl).2, if_neg (hlf c hcl), if_neg hne]
      · intro c hc
        rcases List.mem_append.mp hc with hc | hc
        · exact hframe.isData.mpr (h.data c hc)
        · rw [List.mem_singleton.mp hc]
          exact hframe.isData.mpr hf
    have hrest := ih (hframe.geometry hg) howns (fun c hc => hframe.isData.mpr (hfs c (by simp [hc])))
      (by simpa using hnd)
    simpa [Driver.extend] using hrest

end Allocate

section Zero
variable {s : Fs}

def zeroWrites (position diff : ℕ) : List (ℕ × List UInt8) := zeroRun position (diff + 1) diff

theorem run_zeroWriteLoop (s : Fs) (fuel diff position : ℕ) (hfuel : diff < fuel)
    (hp : position + diff < 2 ^ 64) :
    zeroWriteLoop fuel diff position s = some (0, s.pokes (zeroRun position fuel diff)) := by
  induction fuel generalizing s diff position with
  | zero => omega
  | succ fuel ih =>
    rw [zeroWriteLoop, zeroRun, run_ite]
    by_cases hc : zeroChunk ≤ diff
    · have hpos : (position + zeroChunk) % 2 ^ 64 = position + zeroChunk := Nat.mod_eq_of_lt (by omega)
      have hchunk : 0 < zeroChunk := by decide
      rw [if_pos hc, if_pos hc, run_bind, run_partitionWrite, Option.bind_some, run_ite,
        if_neg (lt_irrefl _), hpos, ih _ _ _ (by omega) (by omega)]
      rfl
    · rw [if_neg hc, if_neg hc, run_ite]
      by_cases h0 : 0 < diff
      · rw [if_pos h0, if_pos h0, run_bind, run_partitionWrite, Option.bind_some, run_ite,
          if_neg (lt_irrefl _), run_pure]
        rfl
      · rw [if_neg h0, if_neg h0, run_pure]
        rfl

theorem patches_zeroRun (m : Store) (fuel diff position : ℕ) (hfuel : diff < fuel) :
    patches m (zeroRun position fuel diff) = patch m position (List.replicate diff 0) := by
  induction fuel generalizing m diff position with
  | zero => omega
  | succ fuel ih =>
    have hchunk : 0 < zeroChunk := by decide
    rw [zeroRun]
    split_ifs with hc h0
    · have hj := patch_append m position (List.replicate zeroChunk 0) (List.replicate (diff - zeroChunk) 0)
      rw [List.length_replicate] at hj
      rw [patches_cons, ih _ _ _ (by omega), hj, ← List.replicate_add, Nat.add_sub_cancel' hc]
    · rfl
    · obtain rfl : diff = 0 := by omega
      simp

theorem zeroRun_within (fuel diff position : ℕ) :
    ∀ p ∈ zeroRun position fuel diff, position ≤ p.1 ∧ p.1 + p.2.length ≤ position + diff := by
  induction fuel generalizing diff position with
  | zero => simp [zeroRun]
  | succ fuel ih =>
    intro p hp
    rw [zeroRun] at hp
    split_ifs at hp with hc h0
    · rcases List.mem_cons.mp hp with rfl | hp
      · exact ⟨le_rfl, by simp only [List.length_replicate]; omega⟩
      · have h := ih _ _ p hp
        omega
    · obtain rfl := List.mem_singleton.mp hp
      exact ⟨le_rfl, by simp⟩
    · simp at hp

theorem run_zeroSeekLoop (hg : Geometry s) {b : ℕ} {l : List ℕ} (hc : Chain s.image.next s.image.Final b l)
    (hd : ∀ x ∈ l, s.image.IsData x) (remaining fuel : ℕ) (hfuel : remaining < fuel)
    (hrem : remaining / s.bs < l.length) (hmod : remaining % s.bs ≠ 0) :
    zeroSeekLoop s.bs fuel remaining b s =
      some (((l[remaining / s.bs] : ℤ), remaining % s.bs), s) := by
  have hbs := hg.bs_pos
  induction hc generalizing remaining fuel with
  | @last b hf =>
    obtain ⟨fuel, rfl⟩ : ∃ m, fuel = m + 1 := ⟨fuel - 1, by omega⟩
    have hlt : remaining < s.bs := by
      simpa [Nat.div_eq_zero_iff, hbs.ne'] using hrem
    rw [zeroSeekLoop, run_ite, if_neg (by omega), run_pure]
    simp only [Nat.div_eq_of_lt hlt, Nat.mod_eq_of_lt hlt, List.getElem_cons_zero]
  | @link b c l hn t ih =>
    obtain ⟨fuel, rfl⟩ : ∃ m, fuel = m + 1 := ⟨fuel - 1, by omega⟩
    by_cases hlt : remaining < s.bs
    · rw [zeroSeekLoop, run_ite, if_neg (by omega), run_pure]
      simp only [Nat.div_eq_of_lt hlt, Nat.mod_eq_of_lt hlt, List.getElem_cons_zero]
    · have hne : remaining ≠ s.bs := fun he => hmod (by rw [he, Nat.mod_self])
      have hq := div_bs_succ hbs (Nat.le_of_not_lt hlt)
      have hm : remaining % s.bs = (remaining - s.bs) % s.bs := Nat.mod_eq_sub_mod (Nat.le_of_not_lt hlt)
      have hcd := (hd c (by simp [t.head_mem])).1
      have hfat := fat_of_next hn
      have hrest := ih (fun x hx => hd x (by simp [hx])) (remaining - s.bs) fuel (by omega)
        (by simp only [List.length_cons] at hrem; omega) (by omega)
      rw [zeroSeekLoop, run_ite, if_pos (by omega), run_bind, run_readFAT, Option.bind_some, hfat,
        run_bind, run_checkBlock _ (by omega), Option.bind_some, hrest]
      simp only [hq, hm, List.getElem_cons_succ]

def Driver.zeroStart (s : Fs) (l : List ℕ) (new_size : ℕ) : ℕ :=
  l.getD (new_size / s.bs) 0 * s.bs + new_size % s.bs

theorem run_zeroOutFree (hg : Geometry s) {e : DirEntry} (h : s.image.Readable e) (new_size : ℕ)
    (hnew : new_size < e.len) :
    zeroOutFree e new_size s = some (0, if new_size % s.bs = 0 then s else
      s.pokes (zeroWrites (s.zeroStart (s.image.chainOf e) new_size) (e.len - new_size))) := by
  have hbs := hg.bs_pos
  unfold zeroOutFree
  rw [run_bind, run_get, Option.bind_some, run_ite]
  by_cases hm : new_size % s.bs = 0
  · rw [if_pos hm, if_pos hm, run_pure]
  · have hle : e.len ≤ (s.image.chainOf e).length * s.bs := by
      rw [← updiv_le_iff _ _ _ hbs, h.size, Image.blocksFor, hg.image_bs]
      omega
    have hj : new_size / s.bs < (s.image.chainOf e).length :=
      (Nat.div_lt_iff_lt_mul hbs).mpr (by omega)
    have hsmall : e.len < 2 ^ 32 := by
      have h₁ : (s.image.chainOf e).length * s.bs ≤ s.blockCount * s.bs :=
        Nat.mul_le_mul_right _ h.owns.length_le
      have h₂ := hg.small
      omega
    obtain ⟨b, hb, hc⟩ := h.owns.start
    have hdata := h.owns.data _ (List.getElem_mem hj)
    have hend := hg.block_small hdata.2
    have hr := Nat.mod_lt new_size hbs
    have hstart := hc.head_mem
    have hbd := (h.owns.data b hstart).1
    have hget : (s.image.chainOf e).getD (new_size / s.bs) 0 = (s.image.chainOf e)[new_size / s.bs] :=
      List.getD_eq_getElem _ _ hj
    rw [if_neg hm, if_neg hm, run_ite, if_neg (by omega), hb]
    simp only [run_bind, run_checkBlock _ (show (1 : ℤ) ≤ (b : ℕ) by omega), Option.bind_some,
      Nat.mod_eq_of_lt (show new_size < 2 ^ 32 by omega)]
    have hpos : ((s.image.chainOf e)[new_size / s.bs] * s.bs + new_size % s.bs) % 2 ^ 64 =
        (s.image.chainOf e)[new_size / s.bs] * s.bs + new_size % s.bs := Nat.mod_eq_of_lt (by omega)
    have hrun := run_zeroWriteLoop s (e.len - new_size + 1) (e.len - new_size)
      ((s.image.chainOf e)[new_size / s.bs] * s.bs + new_size % s.bs) (by omega) (by omega)
    rw [run_zeroSeekLoop hg hc h.owns.data new_size (new_size + 1) (by omega) hj hm, Option.bind_some]
    simp only [hg.mul32_block hdata.2, hpos, hrun, Driver.zeroStart, hget]
    rfl

end Zero

end Thorn.FatDriver

import Thorn.FatResize

set_option autoImplicit false

namespace Thorn.FatDriver
open ByteStore Paths FatTypes FatOperations FatImage LinkedChain

/-- How many slots of a directory hold `.` and `..`: the root has both, also when it is read through a copy. -/
def Driver.skips (s : Fs) (p : ℕ) : ℕ := if (s.entry p).start = s.image.startBlock then 2 else 1

/-- A directory whose entries `newFile` can go through. -/
structure Listed (s : Fs) (p : ℕ) : Prop where
  readable : s.image.Readable (s.entry p)
  directory : (s.entry p).isDirectory
  pos : 0 < (s.entry p).len
  whole : sizeofDirEntry ∣ (s.entry p).len
  first : firstIndex (s.content (s.entry p)) = some (s.skips p)

def Driver.freedSlot (s : Fs) (p : ℕ) : Option ℕ :=
  ((s.image.slots p).drop (s.skips p)).find? fun k => s.free (s.entry k)

/-- The slot behind the last entry, in the directory's last block. -/
def Driver.endSlot (s : Fs) (p : ℕ) : ℕ := s.image.slotAt (s.image.chain p) (s.image.count p)

def Driver.FullDir (s : Fs) (p : ℕ) : Prop := s.bs ∣ (s.entry p).len

instance (s : Fs) (p : ℕ) : Decidable (s.FullDir p) := inferInstanceAs (Decidable (_ ∣ _))

def grownEntry (e : DirEntry) (grow : Bool) : DirEntry :=
  if grow then e.setLength (e.len + sizeofDirEntry) else e

def Driver.entered (s : Fs) (p k : ℕ) (newfile : DirEntry) (grow noalloc : Bool) : Fs :=
  let stored := s.storeEntry newfile (320 * k)
  let grown := if grow then stored.storeEntry (grownEntry (s.entry p) true) (320 * p) else stored
  if noalloc then grown else grown.putFAT FINAL newfile.start

def Driver.newResult (s : Fs) (p k : ℕ) (newfile : DirEntry) (grow : Bool) : NewFileResult :=
  ⟨0, newfile, 320 * k, grownEntry (s.entry p) grow, 320 * p⟩

/-- What `find` reports of the slot of a parent directory. -/
structure IsParent (s : Fs) (p : ℕ) (parent : FindResult) : Prop where
  status : parent.status = 0
  entry : parent.entry = s.entry p
  offset : parent.offset = 320 * p

section Place
variable {s : Fs} {p : ℕ}

theorem run_extendLoop (bs : ℕ) (old : ℤ) (fuel size : ℕ) (block : ℤ) (hsize : size ≤ bs) (s : Fs) :
    extendLoop bs old (fuel + 1) size block s = some (0, s.putFAT FINAL block) := by
  rw [extendLoop, run_ite, if_neg (by omega), run_bind, run_writeFAT, Option.bind_some, run_pure]

theorem run_newFileFinish {parent : FindResult} (hp : IsParent s p parent) (newfile : DirEntry) (k length : ℕ)
    (old : ℤ) (noalloc grow : Bool) (hlen : length ≤ s.bs) (t : Fs)
    (ht : t = s.storeEntry newfile (320 * k)) :
    newFileFinish parent newfile (320 * k) length old noalloc grow t =
      some (s.newResult p k newfile grow, s.entered p k newfile grow noalloc) := by
  have hbs : ∀ u : Fs, SameFrame s u → length ≤ u.superblock.blockSize := fun u hu => by
    rw [hu.superblock]
    exact hlen
  have hst := SameFrame.storeEntry s newfile (320 * k)
  obtain ⟨hstatus, hentry, hoffset⟩ := hp
  subst ht
  unfold newFileFinish
  rw [run_bind, run_get, Option.bind_some]
  cases grow <;> cases noalloc <;>
    simp only [Bool.false_eq_true, ite_true, ite_false, run_bind, run_pure, Option.bind_some, run_writeEntry,
      run_ite, lt_self_iff_false, run_extendLoop _ _ _ _ _ (hbs _ hst), hstatus, hentry, hoffset] <;>
    rfl

theorem run_findFreed (l : List ℕ) (i : ℕ) :
    findFreed (l.map fun k => (s.entry k, 320 * k)) i s =
      some ((l.find? fun k => s.free (s.entry k)).map fun k => (320 * k, i + l.findIdx fun k => s.free (s.entry k)),
        s) := by
  induction l generalizing i with
  | nil => rfl
  | cons k l ih =>
    rw [List.map_cons, findFreed, run_bind, run_isFree, Option.bind_some, run_ite]
    by_cases hf : s.free (s.entry k)
    · rw [if_pos hf, run_pure, List.find?_cons_of_pos (p := fun k => s.free (s.entry k)) hf, List.findIdx_cons,
        hf]
      rfl
    · rw [if_neg hf, ih, List.find?_cons_of_neg (p := fun k => s.free (s.entry k)) hf, List.findIdx_cons,
        Bool.eq_false_iff.mpr hf]
      simp only [cond_false, Nat.add_assoc, Nat.add_comm 1]

theorem run_lastBlockLoop (hg : Geometry s) {b : ℕ} {l : List ℕ} (hc : Chain s.image.next s.image.Final b l)
    (remaining fuel : ℕ) (hfuel : remaining < fuel) (h0 : 0 < remaining)
    (hlen : updiv remaining s.bs = l.length) :
    lastBlockLoop s.bs fuel remaining b s =
      some ((((l.getLast hc.ne_nil : ℕ) : ℤ), remaining - (l.length - 1) * s.bs), s) := by
  have hbs := hg.bs_pos
  induction hc generalizing remaining fuel with
  | @last b hf =>
    obtain ⟨fuel, rfl⟩ : ∃ m, fuel = m + 1 := ⟨fuel - 1, by omega⟩
    have hle : remaining ≤ s.bs := by
      simpa using (updiv_le_iff remaining s.bs 1 hbs).mp (by simpa using hlen.le)
    rw [lastBlockLoop, run_ite, if_neg (by omega), run_pure]
    simp
  | @link b c l hn t ih =>
    obtain ⟨fuel, rfl⟩ : ∃ m, fuel = m + 1 := ⟨fuel - 1, by omega⟩
    have hpos := t.length_pos
    have hfat := fat_of_next hn
    have hgt : s.bs < remaining := by
      by_contra hle
      have := (updiv_le_iff remaining s.bs 1 hbs).mpr (by omega)
      simp only [List.length_cons] at hlen
      omega
    have hu : updiv remaining s.bs = updiv (remaining - s.bs) s.bs + 1 := updiv_sub hbs (by omega)
    have hrest := ih (remaining - s.bs) fuel (by omega) (by omega)
      (by simp only [List.length_cons] at hlen; omega)
    rw [lastBlockLoop, run_ite, if_pos hgt, run_bind, run_readFAT, Option.bind_some, hfat, hrest]
    have hmul : (l.length + 1 - 1) * s.bs = (l.length - 1) * s.bs + s.bs := by
      rw [← Nat.succ_mul]
      congr 1
      omega
    simp only [List.length_cons, List.getLast_cons t.ne_nil, hmul]
    congr 3
    omega

section Position

theorem Listed.len_eq (h : Listed s p) : (s.entry p).len = 320 * s.image.count p :=
  (Nat.mul_div_cancel' h.whole).symm

theorem Listed.chain_ne (h : Listed s p) : s.image.chain p ≠ [] := h.readable.owns.ne_nil

theorem Listed.chain_eq (hg : Geometry s) (h : Listed s p) :
    (s.image.chain p).length = updiv (s.entry p).len s.bs := by
  have hm := chain_length hg h.readable
  have hu := updiv_pos (s.entry p).len s.bs hg.bs_pos h.pos
  change (s.image.chainOf (s.entry p)).length = _
  omega

theorem full_iff (hg : Geometry s) (h : Listed s p) : s.FullDir p ↔ s.image.count p % s.image.epb = 0 := by
  rw [Driver.FullDir, h.len_eq, ← hg.epb_mul, Nat.mul_dvd_mul_iff_left (by omega), Nat.dvd_iff_mod_eq_zero]

theorem chain_count (hg : Geometry s) (h : Listed s p) : (s.image.chain p).length =
    s.image.count p / s.image.epb + if s.FullDir p then 0 else 1 := by
  have hlen := h.len_eq
  have hmod : 320 * s.image.count p % (320 * s.image.epb) = 320 * (s.image.count p % s.image.epb) :=
    Nat.mul_mod_mul_left 320 _ _
  rw [h.chain_eq hg, updiv, hlen, ← hg.epb_mul, Nat.mul_div_mul_left _ _ (by omega), hmod]
  congr 1
  by_cases hf : s.FullDir p
  · have hz := (full_iff hg h).mp hf
    rw [if_pos hf, hz, Nat.mul_zero, if_neg (by omega)]
  · have hz := mt (full_iff hg h).mpr hf
    rw [if_neg hf, if_pos (by omega)]

theorem last_remaining (hg : Geometry s) (h : Listed s p) :
    (s.entry p).len - ((s.image.chain p).length - 1) * s.bs =
      if s.FullDir p then s.bs else 320 * (s.image.count p % s.image.epb) := by
  have hcount := chain_count hg h
  have hpos := h.readable.owns.length_pos
  have hdm := Nat.div_add_mod' (s.image.count p) s.image.epb
  change 0 < (s.image.chain p).length at hpos
  rw [h.len_eq]
  split_ifs at hcount ⊢ with hf
  · have hz := (full_iff hg h).mp hf
    have hq : ((s.image.chain p).length - 1) * s.bs + s.bs = 320 * (s.image.count p) := by
      calc ((s.image.chain p).length - 1) * s.bs + s.bs = (s.image.chain p).length * s.bs := by
            rw [← Nat.succ_mul]
            congr 1
            omega
        _ = s.image.count p / s.image.epb * (320 * s.image.epb) := by rw [hcount, hg.epb_mul]; rfl
        _ = 320 * (s.image.count p / s.image.epb * s.image.epb) := by ring
        _ = 320 * s.image.count p := by omega
    omega
  · have hq : ((s.image.chain p).length - 1) * s.bs = 320 * (s.image.count p / s.image.epb * s.image.epb) := by
      rw [hcount, Nat.add_sub_cancel, ← hg.epb_mul]
      ring
    omega

theorem endSlot_position (hg : Geometry s) (h : Listed s p) (hf : ¬ s.FullDir p) :
    320 * s.endSlot p = (s.image.chain p).getLast h.chain_ne * s.bs +
      320 * (s.image.count p % s.image.epb) ∧ s.image.count p / s.image.epb < (s.image.chain p).length := by
  have hcount := chain_count hg h
  rw [if_neg hf] at hcount
  have hlt : s.image.count p / s.image.epb < (s.image.chain p).length := by omega
  have hlast : (s.image.chain p).getLast h.chain_ne = (s.image.chain p)[s.image.count p / s.image.epb] := by
    rw [List.getLast_eq_getElem]
    simp only [hcount, Nat.add_sub_cancel]
  refine ⟨?_, hlt⟩
  rw [Driver.endSlot, slot_block _ _ hlt hg, hlast, Nat.mul_comm 320]

end Position

theorem toSize_room (hg : Geometry s) :
    toSize ((s.bs : ℤ) - (sizeofDirEntry : ℕ)) = s.bs - sizeofDirEntry := by
  have hbs := hg.blockSize
  have hsmall := hg.block_small (b := 0) (by have := hg.inside; omega)
  simp only [sizeofDirEntry] at hbs
  have hroom : (s.bs : ℤ) - (sizeofDirEntry : ℕ) = ((s.bs - sizeofDirEntry : ℕ) : ℤ) := by
    simp only [sizeofDirEntry]
    omega
  rw [hroom, toSize_natCast]
  omega

theorem freedSlot_inside {k : ℕ} (hfreed : s.freedSlot p = some k) :
    s.skips p + ((s.image.slots p).drop (s.skips p)).findIdx (fun k => s.free (s.entry k)) <
      (s.entry p).len / sizeofDirEntry := by
  rw [Driver.freedSlot] at hfreed
  have hindex := List.findIdx_lt_length_of_exists
    ⟨k, List.mem_of_find?_eq_some hfreed, List.find?_some hfreed⟩
  have hslots : (s.image.slots p).length = (s.entry p).len / sizeofDirEntry := by
    rw [Image.slots, Image.slotsIn, List.length_map, List.length_range]
    rfl
  rw [List.length_drop, hslots] at hindex
  omega

section Room
variable (hg : Geometry s) (h : Listed s p)
include hg h

theorem first_not_full (hfirst : (s.entry p).len ≤ s.bs - sizeofDirEntry) : ¬ s.FullDir p := fun hf => by
  have hle := Nat.le_of_dvd h.pos hf
  have hbs := hg.blockSize
  simp only [sizeofDirEntry] at hfirst hbs
  omega

theorem first_position (hfirst : (s.entry p).len ≤ s.bs - sizeofDirEntry) :
    toSize ((s.entry p).start * (s.bs : ℤ) + (s.entry p).len) = 320 * s.endSlot p := by
  have hfull := first_not_full hg h hfirst
  have hchain := chain_count hg h
  have hend := hg.block_small (h.readable.owns.data _ (List.getLast_mem h.chain_ne)).2
  have hE := hg.epb_mul
  have hlen_eq := h.len_eq
  have hbs := hg.blockSize
  have hone : s.image.count p < s.image.epb := by
    simp only [sizeofDirEntry] at hfirst hbs
    omega
  rw [if_neg hfull, Nat.div_eq_of_lt hone, Nat.zero_add] at hchain
  have hhead : (s.entry p).start = ((s.image.chain p).getLast h.chain_ne : ℕ) := by
    rw [h.readable.owns.head h.readable.owns.length_pos, List.getLast_eq_getElem]
    simp only [hchain]
    rfl
  rw [(endSlot_position hg h hfull).1, Nat.mod_eq_of_lt hone, hhead, ← hlen_eq]
  have hsum := toSize_natCast ((s.image.chain p).getLast h.chain_ne * s.bs + (s.entry p).len) (by omega)
  exact_mod_cast hsum

theorem last_position (hf : ¬ s.FullDir p) :
    toSize ((((s.image.chain p).getLast h.chain_ne : ℕ) : ℤ) * (s.bs : ℤ) +
      (320 * (s.image.count p % s.image.epb) : ℕ)) = 320 * s.endSlot p := by
  have hend := hg.block_small (h.readable.owns.data _ (List.getLast_mem h.chain_ne)).2
  have hmod := Nat.mod_lt (s.image.count p) hg.epb_pos
  have hE := hg.epb_mul
  rw [(endSlot_position hg h hf).1]
  have hsum := toSize_natCast ((s.image.chain p).getLast h.chain_ne * s.bs +
    320 * (s.image.count p % s.image.epb)) (by omega)
  exact_mod_cast hsum

end Room

/-- `newFile` behind the allocation of its first block: a freed slot is taken if
there is one, else the slot behind the last entry; a full directory is expanded. -/
theorem run_newFilePlace_finish (hg : Geometry s) (h : Listed s p) {parent : FindResult}
    (hp : IsParent s p parent) (newfile : DirEntry) (length : ℕ) (old : ℤ) (noalloc : Bool) :
    newFilePlace parent newfile length old noalloc s =
      match s.freedSlot p with
      | some k => newFileFinish parent newfile (320 * k) length old noalloc false (s.storeEntry newfile (320 * k))
      | none =>
        if s.FullDir p then
          newFileExpand parent newfile length (((s.image.chain p).getLast h.chain_ne : ℕ) : ℤ) old noalloc s
        else if noalloc = false ∧ (s.entry p).len ≤ s.bs - sizeofDirEntry ∧
            ¬ (s.freeList ≠ [] ∧ updiv length s.bs ≤ s.freeList.length) then
          some (.fail (-ENOSPC), s.putFAT 0 old)
        else newFileFinish parent newfile (320 * s.endSlot p) length old noalloc true
          (s.storeEntry newfile (320 * s.endSlot p)) := by
  have hentry := hp.entry
  have hlisting : s.listing (s.entry p) = (s.image.slots p).map fun k => (s.entry k, 320 * k) := rfl
  have hdir : (s.entry p).len ≠ 0 ∧ (s.entry p).isDirectory := ⟨h.pos.ne', h.directory⟩
  have hread := run_readDir hg (s.entry p) fun _ => h.readable
  rw [if_pos hdir, h.first, hlisting] at hread
  rw [newFilePlace, run_bind, run_get, Option.bind_some, run_bind, hentry, hread, Option.bind_some]
  dsimp only
  rw [run_ite, if_neg (lt_irrefl _), run_bind, ← List.map_drop, run_findFreed, Option.bind_some]
  cases hfreed : s.freedSlot p with
  | some k =>
    have hgrow := decide_eq_false (not_not.mpr (freedSlot_inside hfreed))
    rw [Driver.freedSlot] at hfreed
    rw [hfreed, Option.map_some]
    dsimp only
    rw [run_bind, run_writeEntry, Option.bind_some, run_ite, if_neg (lt_irrefl _), hgrow]
  | none =>
    rw [Driver.freedSlot] at hfreed
    rw [hfreed, Option.map_none]
    dsimp only
    rw [run_ite, toSize_room hg]
    by_cases hfirst : (s.entry p).len ≤ s.bs - sizeofDirEntry
    · rw [if_pos hfirst, if_neg (first_not_full hg h hfirst), first_position hg h hfirst]
      cases noalloc with
      | true =>
        rw [if_neg fun hc : _ ∧ _ ∧ _ => absurd hc.1 (by decide)]
        simp only [ite_true, run_bind, run_pure, Option.bind_some, not_true_eq_false, run_ite, ite_false,
          run_writeEntry, lt_self_iff_false]
      | false =>
        by_cases henough : s.freeList ≠ [] ∧ updiv length s.bs ≤ s.freeList.length
        · have hdec : decide (s.freeList ≠ [] ∧ updiv length s.superblock.blockSize ≤ s.freeList.length) = true :=
            decide_eq_true henough
          rw [if_neg fun hc : _ ∧ _ ∧ ¬ _ => hc.2.2 henough]
          simp only [Bool.false_eq_true, ite_false, run_bind, run_hasFree, hdec, Option.bind_some,
            not_true_eq_false, run_ite, run_writeEntry, lt_self_iff_false]
        · have hdec : decide (s.freeList ≠ [] ∧ updiv length s.superblock.blockSize ≤ s.freeList.length) = false :=
            decide_eq_false henough
          rw [if_pos (show _ ∧ _ ∧ _ from ⟨rfl, hfirst, henough⟩)]
          simp only [Bool.false_eq_true, ite_false, run_bind, run_hasFree, hdec, Option.bind_some,
            not_false_eq_true, run_ite, ite_true, run_writeFAT, run_pure]
    · obtain ⟨b, hb, hc⟩ := h.readable.owns.start
      have hloop :=
        run_lastBlockLoop hg hc (s.entry p).len ((s.entry p).len + 1) (by omega) h.pos (h.chain_eq hg).symm
      have hrest : (s.entry p).len - ((s.image.chainOf (s.entry p)).length - 1) * s.bs =
          if s.FullDir p then s.bs else 320 * (s.image.count p % s.image.epb) := last_remaining hg h
      have hbs := hg.blockSize
      have hmod := Nat.mod_lt (s.image.count p) hg.epb_pos
      have hE := hg.epb_mul
      simp only [sizeofDirEntry] at hbs
      rw [if_neg hfirst, run_bind, hb, hloop, Option.bind_some, hrest]
      dsimp only
      rw [run_ite]
      by_cases hf : s.FullDir p
      · have hlt : s.bs - sizeofDirEntry < s.bs := by
          simp only [sizeofDirEntry]
          omega
        simp only [hf, ite_true, hlt]
        rfl
      · have hle : ¬ s.bs - sizeofDirEntry < 320 * (s.image.count p % s.image.epb) := by
          simp only [sizeofDirEntry]
          omega
        have hposition : toSize ((((s.image.chainOf (s.entry p)).getLast hc.ne_nil : ℕ) : ℤ) *
            (s.superblock.blockSize : ℤ) + (320 * (s.image.count p % s.image.epb) : ℕ)) = 320 * s.endSlot p :=
          last_position hg h hf
        simp only [hf, ite_false]
        rw [if_neg hle, if_neg fun hc : _ ∧ _ ∧ _ => hfirst hc.2.1, hposition, run_bind, run_writeEntry,
          Option.bind_some, run_ite, if_neg (lt_irrefl _)]

theorem run_newFilePlace (hg : Geometry s) (h : Listed s p) {parent : FindResult} (hp : IsParent s p parent)
    (newfile : DirEntry) (length : ℕ) (hlen : length ≤ sizeofDirEntry) (old : ℤ) (noalloc : Bool) :
    newFilePlace parent newfile length old noalloc s =
      match s.freedSlot p with
      | some k => some (s.newResult p k newfile false, s.entered p k newfile false noalloc)
      | none =>
        if s.FullDir p then
          newFileExpand parent newfile length (((s.image.chain p).getLast h.chain_ne : ℕ) : ℤ) old noalloc s
        else if noalloc = false ∧ (s.entry p).len ≤ s.bs - sizeofDirEntry ∧ s.freeList = [] then
          some (.fail (-ENOSPC), s.putFAT 0 old)
        else some (s.newResult p (s.endSlot p) newfile true, s.entered p (s.endSlot p) newfile true noalloc) := by
  have hbs := hg.blockSize
  simp only [sizeofDirEntry] at hbs hlen
  have hlen' : length ≤ s.bs := by omega
  have hblocks : updiv length s.bs ≤ 1 := (updiv_le_iff _ _ _ hg.bs_pos).mpr (by omega)
  have henough : (¬ (s.freeList ≠ [] ∧ updiv length s.bs ≤ s.freeList.length)) ↔ s.freeList = [] := by
    constructor
    · intro hno
      by_contra hne
      exact hno ⟨hne, hblocks.trans (List.length_pos_of_ne_nil hne)⟩
    · exact fun hnil hyes => hyes.1 hnil
  rw [run_newFilePlace_finish hg h hp newfile length old noalloc]
  cases s.freedSlot p with
  | some k => exact run_newFileFinish hp newfile k length old noalloc false hlen' _ rfl
  | none => simp only [henough, run_newFileFinish hp newfile (s.endSlot p) length old noalloc true hlen' _ rfl]

section Expand

theorem block_position (hg : Geometry s) {f : ℕ} (hf : f < s.blockCount) :
    toSize ((f : ℤ) * (s.bs : ℤ)) = 320 * (f * s.image.epb) := by
  have hend := hg.block_small hf
  have hnat := toSize_natCast (f * s.bs) (by omega)
  calc toSize ((f : ℤ) * (s.bs : ℤ)) = f * s.bs := by exact_mod_cast hnat
    _ = 320 * (f * s.image.epb) := by
      rw [← hg.epb_mul]
      ring

theorem freeList_putFAT (hg : Geometry s) {b v : ℕ} (hb : b < s.blockCount) (hv : v < s.blockCount)
    (hv0 : v ≠ 0) (hused : s.fat b ≠ 0) : (s.putFAT v b).freeList = s.freeList := by
  unfold Driver.freeList
  refine List.filter_congr fun c hc => ?_
  rw [putFAT_block_fat hg hb (List.mem_range.mp hc) hv]
  split_ifs with hcb
  · subst hcb
    simp [hused, hv0]
  · rfl

theorem IsParent.putFAT (hg : Geometry s) {parent : FindResult} (hp : IsParent s p parent) (hslot : s.IsSlot p)
    (v : ℤ) {b : ℕ} (hb : b < s.blockCount) : IsParent (s.putFAT v b) p parent :=
  ⟨hp.status, by rw [hp.entry, putFAT_entry hg hb v hslot], hp.offset⟩

/-- The parent with one more block, when the entry needs no block of its own. -/
def Driver.expanded (s : Fs) (p last f : ℕ) (newfile : DirEntry) : Fs :=
  (s.putFAT last f).entered p (f * s.image.epb) newfile true true

theorem run_newFileExpand_noalloc (hg : Geometry s) (hslot : s.IsSlot p) {parent : FindResult}
    (hp : IsParent s p parent) (newfile : DirEntry) (length last : ℕ) (hlen : length ≤ sizeofDirEntry) :
    newFileExpand parent newfile length last s.firstFree true s =
      match s.freeList with
      | [] => some (.fail (-ENOSPC), s)
      | f :: _ => some ((s.putFAT last f).newResult p (f * s.image.epb) newfile true, s.expanded p last f newfile) := by
  have hbs := hg.blockSize
  simp only [sizeofDirEntry] at hbs hlen
  cases hfree : s.freeList with
  | nil =>
    have hdec : decide ((s.freeList ≠ []) ∧ 1 ≤ s.freeList.length) = false :=
      decide_eq_false fun hc => hc.1 hfree
    simp only [newFileExpand, run_bind, run_get, Option.bind_some, ite_true, run_hasFree, hdec, run_ite,
      Bool.false_eq_true, not_false_eq_true, not_true_eq_false, ite_false, run_pure]
  | cons f fs =>
    have hf := (mem_freeList.mp (hfree ▸ List.mem_cons_self : f ∈ s.freeList)).1
    have hfirst := firstFree_cons hg hfree
    have hdec : decide ((s.freeList ≠ []) ∧ 1 ≤ s.freeList.length) = true := by
      apply decide_eq_true
      rw [hfree]
      exact ⟨by simp, by simp⟩
    have hframe := SameFrame.putFAT s last f
    have hfinish := run_newFileFinish (hp.putFAT hg hslot last hf) newfile (f * s.image.epb) length f true true
      (by rw [hframe.bs]; omega) _ rfl
    simp only [newFileExpand, run_bind, run_get, Option.bind_some, ite_true, run_hasFree, hdec, run_ite,
      not_true_eq_false, ite_false, run_pure, run_writeFAT, false_and, hfirst, block_position hg hf, run_writeEntry,
      lt_self_iff_false, hfinish]
    rfl

/-- The parent with one more block, and another one for the new file. -/
def Driver.expandedBoth (s : Fs) (p last f g : ℕ) (newfile : DirEntry) : Fs :=
  ((s.putFAT last f).addFree (-1)).entered p (f * s.image.epb) (newfile.setStart g) true false

theorem run_newFileExpand_finish (hg : Geometry s) {parent : FindResult} (newfile : DirEntry)
    (length last f : ℕ)
    (hf : f < s.blockCount) (hused : s.fat f ≠ 0) (hlast : last < s.blockCount) (hlast0 : last ≠ 0) :
    newFileExpand parent newfile length last f false s =
      match s.freeList with
      | [] => some (.fail (-ENOSPC), s.putFAT 0 f)
      | g :: fs => if fs.length + 1 < 2 + updiv length s.bs then some (.fail (-ENOSPC), s.putFAT 0 f)
        else newFileFinish parent (newfile.setStart g) (320 * (f * s.image.epb)) length f false true
          (((s.putFAT last f).addFree (-1)).storeEntry (newfile.setStart g) (320 * (f * s.image.epb))) := by
  have hlist := freeList_putFAT hg hf hlast hlast0 hused
  have hframe := SameFrame.putFAT s last f
  cases hfree : s.freeList with
  | nil =>
    have hdec : decide ((s.freeList ≠ []) ∧ 2 + updiv length s.superblock.blockSize ≤ s.freeList.length) =
        false :=
      decide_eq_false fun hc => hc.1 hfree
    simp only [newFileExpand, run_bind, run_get, Option.bind_some, Bool.false_eq_true, ite_false, run_hasFree,
      hdec, run_ite, not_false_eq_true, ite_true, run_writeFAT, run_pure]
  | cons g fs =>
    by_cases hfew : fs.length + 1 < 2 + updiv length s.bs
    · have hdec : decide ((s.freeList ≠ []) ∧ 2 + updiv length s.superblock.blockSize ≤ s.freeList.length) =
          false := by
        apply decide_eq_false
        rw [hfree, List.length_cons]
        exact fun hc => not_le.mpr hfew hc.2
      simp only [newFileExpand, run_bind, run_get, Option.bind_some, Bool.false_eq_true, ite_false, run_hasFree,
        hdec, run_ite, not_false_eq_true, ite_true, run_writeFAT, run_pure, hfew]
    · have hdec : decide ((s.freeList ≠ []) ∧ 2 + updiv length s.superblock.blockSize ≤ s.freeList.length) =
          true := by
        apply decide_eq_true
        rw [hfree, List.length_cons]
        exact ⟨by simp, not_lt.mp hfew⟩
      have hfirst : (s.putFAT last f).firstFree = g := firstFree_cons (hframe.geometry hg) (hlist.trans hfree)
      have hg0 : ((g : ℕ) : ℤ) ≠ UNUSABLE := by
        simp only [UNUSABLE]
        omega
      simp only [newFileExpand, run_bind, run_get, Option.bind_some, Bool.false_eq_true, ite_false, run_hasFree,
        hdec, run_ite, not_true_eq_false, run_pure, run_writeFAT, run_findFreeBlock, hfirst, hg0, and_false,
        not_false_eq_true, ite_true, run_addBlocksFree, block_position hg hf, run_writeEntry, lt_self_iff_false, hfew]
      rfl

end Expand

end Place

end Thorn.FatDriver

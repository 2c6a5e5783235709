import Thorn.FatState
import Thorn.FatTree

set_option autoImplicit false

namespace Thorn.FatDriver
open ByteStore Paths FatTypes FatOperations FatImage LinkedChain

/-- The bytes of a file: the blocks of its chain, in order, cut to its length. -/
def Driver.content (s : Fs) (e : DirEntry) : List UInt8 :=
  (gather s.data s.bs (s.image.chainOf e)).take e.len

def Driver.load (s : Fs) : Fs := { s with root := s.entry s.image.rootSlot }

section Content
variable {s : Fs}

@[simp] theorem block_length (s : Fs) (b : ℕ) : (s.block b).length = s.bs := blockAt_length _ _ _

theorem fat_of_next {b c : ℕ} (h : s.image.next b = some c) : s.fat b = c := by
  unfold Image.next at h
  split_ifs at h with hp
  rw [image_fat] at hp h
  have hc : (s.fat b).toNat = c := Option.some.inj h
  omega

theorem run_checkBlock (b : ℤ) (hb : 1 ≤ b) (s : Fs) : checkBlock b s = some ((), s) := by
  unfold checkBlock
  rw [run_ite, if_neg (by omega), run_pure]

theorem peek_block (hg : Geometry s) {b : ℕ} (hb : s.image.IsData b) (r n : ℕ) (hr : r + n ≤ s.bs) :
    s.peek (b * s.bs + r) n = slice s.data (b * s.bs + r) n := by
  have := data_range hg hb
  exact peek_eq_slice _ _ _ (hg.no_wrap (by omega))

theorem run_readFileLoop_last {b : ℤ} {file : DirEntry} {bs fuel remaining : ℕ} {out : List UInt8}
    (h0 : 0 < remaining)
    (hle : remaining ≤ bs) (hb : 1 ≤ b) : readFileLoop file bs (fuel + 1) remaining b out s =
      (if s.fat b ≠ FINAL ∧ file.isDirectory then
        (shrinkLoop (walkFuel s.superblock) (s.fat b) (s.putFAT FINAL b)).map Prod.snd else some s).map
          fun t => ((0, out ++ s.peek (mul32 b bs) remaining), t) := by
  rw [readFileLoop, run_ite, if_neg h0.ne', run_ite, if_pos hle, run_bind, run_checkBlock b hb,
    Option.bind_some, run_bind, run_partitionRead, Option.bind_some]
  dsimp only
  rw [run_ite, if_neg (lt_irrefl _), run_bind, run_readFAT, Option.bind_some]
  dsimp only
  rw [run_ite]
  split_ifs
  · rw [run_bind, run_get, Option.bind_some, run_bind, run_writeFAT, Option.bind_some]
    dsimp only
    rw [run_bind]
    cases shrinkLoop (walkFuel s.superblock) (s.fat b) (s.putFAT FINAL b) <;> rfl
  · rfl

theorem run_readFileLoop_more {b : ℤ} {file : DirEntry} {bs fuel remaining : ℕ} {out : List UInt8}
    (h : bs < remaining) :
    readFileLoop file bs (fuel + 1) remaining b out s = if s.fat b = FINAL then some ((-EINVAL, out), s)
      else if b < 1 then none
      else readFileLoop file bs fuel (remaining - bs) (s.fat b) (out ++ s.peek (mul32 b bs) bs) s := by
  rw [readFileLoop, run_ite, if_neg (by omega), run_ite, if_neg (by omega), run_bind, run_readFAT,
    Option.bind_some, run_ite]
  by_cases hf : s.fat b = FINAL
  · rw [if_pos hf, if_pos hf, run_pure]
  · rw [if_neg hf, if_neg hf, run_bind, checkBlock, run_ite]
    by_cases hb : b < 1
    · rw [if_pos hb, if_pos hb]
      rfl
    · rw [if_neg hb, if_neg hb, run_pure, Option.bind_some, run_bind, run_partitionRead, Option.bind_some]
      dsimp only
      rw [run_ite, if_neg (lt_irrefl _), run_bind, run_readFAT, Option.bind_some]

/-- What the transfers of whole blocks bring, one for each block. -/
def Driver.transfers (s : Fs) (l : List ℕ) : List UInt8 := l.flatMap fun b : ℕ => s.peek (mul32 b s.bs) s.bs

theorem peek_take (p : ℕ) {n k : ℕ} (h : k ≤ n) : (s.peek p n).take k = s.peek p k := slice_take _ _ _ _ h

theorem peek_length (p n : ℕ) : (s.peek p n).length = n := slice_length _ _ _

/-- The loop of `readFile` over a chain that is long enough, and for a directory
exactly long enough: nothing is trimmed. -/
theorem run_readFileLoop_transfers (hbs : 0 < s.bs) (e : DirEntry) {b : ℕ} {l : List ℕ}
    (hc : Chain s.image.next s.image.Final b l) (hpos : ∀ x ∈ l, 0 < x)
    (remaining fuel : ℕ) (out : List UInt8) (h0 : 0 < remaining) (hfuel : remaining ≤ fuel)
    (hlen : updiv remaining s.bs ≤ l.length)
    (hdir : e.isDirectory → updiv remaining s.bs = l.length) :
    readFileLoop e s.bs fuel remaining b out s = some ((0, out ++ (s.transfers l).take remaining), s) := by
  induction hc generalizing remaining fuel out with
  | @last b hf =>
    obtain ⟨fuel, rfl⟩ : ∃ m, fuel = m + 1 := ⟨fuel - 1, by omega⟩
    have hle : remaining ≤ s.bs := by
      simpa using (updiv_le_iff remaining s.bs 1 hbs).mp (by simpa using hlen)
    have hb := hpos b (by simp)
    have hfat : s.fat b = FINAL := hf
    rw [run_readFileLoop_last h0 hle (by omega), if_neg (fun h => h.1 hfat), Option.map_some,
      Driver.transfers, List.flatMap_singleton, peek_take _ hle]
  | @link b c l hn t ih =>
    obtain ⟨fuel, rfl⟩ : ∃ m, fuel = m + 1 := ⟨fuel - 1, by omega⟩
    have hb := hpos b (by simp)
    have hcpos := hpos c (by simp [t.head_mem])
    have hfat := fat_of_next hn
    have htransfers : s.transfers (b :: l) = s.peek (mul32 b s.bs) s.bs ++ s.transfers l := List.flatMap_cons
    by_cases hle : remaining ≤ s.bs
    · have hnd : ¬ e.isDirectory := by
        intro hdir'
        have h1 := (updiv_le_iff remaining s.bs 1 hbs).mpr (by omega)
        have h2 := hdir hdir'
        have h3 := t.length_pos
        simp only [List.length_cons] at h2
        omega
      rw [run_readFileLoop_last h0 hle (by omega), if_neg (fun h => hnd h.2), Option.map_some, htransfers,
        List.take_append_of_le_length (by rw [peek_length]; exact hle), peek_take _ hle]
    · have hnf : s.fat b ≠ FINAL := by
        rw [hfat]
        unfold FINAL
        omega
      have hu : updiv remaining s.bs = updiv (remaining - s.bs) s.bs + 1 := updiv_sub hbs (by omega)
      have hrest := ih (fun x hx => hpos x (by simp [hx])) (remaining - s.bs) fuel
        (out ++ s.peek (mul32 b s.bs) s.bs) (by omega) (by omega) (by simp only [List.length_cons] at hlen; omega)
        (fun h => by have := hdir h; simp only [List.length_cons] at this; omega)
      have hwhole : (s.peek (mul32 b s.bs) s.bs).take remaining = s.peek (mul32 b s.bs) s.bs :=
        List.take_of_length_le (by rw [peek_length]; omega)
      rw [run_readFileLoop_more (by omega), if_neg hnf, if_neg (by omega), hfat, hrest, htransfers,
        List.append_assoc, List.take_append, hwhole, peek_length]

theorem transfers_gather (hg : Geometry s) {l : List ℕ} (hd : ∀ x ∈ l, s.image.IsData x) :
    s.transfers l = gather s.data s.bs l := by
  apply List.flatMap_congr
  intro b hb
  have hp := peek_block hg (hd b hb) 0 s.bs (by omega)
  rw [Nat.add_zero] at hp
  rw [hg.mul32_block (hd b hb).2, hp]
  rfl

theorem run_readFile (hg : Geometry s) (e : DirEntry) (h : s.image.Readable e) :
    readFile e s = some ((0, s.content e), s) := by
  unfold readFile
  rw [run_bind, run_get, Option.bind_some, run_ite]
  by_cases h0 : e.len = 0
  · rw [if_pos h0, run_pure, Driver.content, h0, List.take_zero]
  · rw [if_neg h0]
    obtain ⟨b, hb, hc⟩ := h.owns.start
    have hu := updiv_pos e.len s.bs hg.bs_pos (by omega)
    have hs : (s.image.chainOf e).length = updiv e.len s.bs := by
      rw [h.size, Image.blocksFor, hg.image_bs]
      omega
    have hloop :=
      run_readFileLoop_transfers hg.bs_pos e hc (fun x hx => Nat.zero_lt_of_lt (h.owns.data x hx).1) e.len
      (e.len + walkFuel s.superblock) [] (by omega) (by omega) hs.ge fun _ => hs.symm
    rw [transfers_gather hg h.owns.data] at hloop
    rw [hb]
    exact hloop

end Content

theorem succ_div_last {i n : ℕ} (hn : 0 < n) (h : i % n = n - 1) : (i + 1) / n = i / n + 1 := by
  have hd := Nat.div_add_mod i n
  refine Nat.div_eq_of_eq_mul_right hn ?_
  rw [Nat.mul_add]
  omega

theorem succ_div_same {i n : ℕ} (hn : 0 < n) (h : i % n ≠ n - 1) : (i + 1) / n = i / n := by
  have hd := Nat.div_add_mod i n
  have hm := Nat.mod_lt i hn
  refine Nat.div_eq_of_lt_le ?_ ?_
  · rw [Nat.mul_comm]
    omega
  · rw [Nat.add_mul, Nat.mul_comm]
    omega

section Directories
variable {s : Fs}

theorem slot_block (l : List ℕ) (i : ℕ) (hi : i / s.image.epb < l.length) (hg : Geometry s) :
    320 * s.image.slotAt l i = l[i / s.image.epb] * s.bs + i % s.image.epb * 320 := by
  rw [Image.slotAt, List.getD_eq_getElem _ _ hi, ← hg.epb_mul]
  ring

def Driver.entryPlace (s : Fs) (l : List ℕ) (i : ℕ) : ℕ :=
  let epb := s.bs / sizeofDirEntry
  (mul32 (l.getD (i / epb) 0 : ℕ) s.bs + i % epb * sizeofDirEntry) % 2 ^ 64

theorem run_readDirLoop (hE : 0 < s.bs / sizeofDirEntry) {l : List ℕ}
    (hlink : ∀ (j : ℕ) (h : j + 1 < l.length), s.fat l[j] = l[j + 1]) (raw : List UInt8) (n i : ℕ) (block : ℤ)
    (hn : i + n ≤ l.length * (s.bs / sizeofDirEntry))
    (hblock : ∀ hi : i / (s.bs / sizeofDirEntry) < l.length, block = l[i / (s.bs / sizeofDirEntry)]) :
    readDirLoop raw s.bs (s.bs / sizeofDirEntry) n i block s = some ((List.range' i n).map fun j =>
      (DirEntry.decode ((raw.drop (sizeofDirEntry * j)).take sizeofDirEntry), s.entryPlace l j), s) := by
  induction n generalizing i block with
  | zero => rfl
  | succ n ih =>
    have hi : i / (s.bs / sizeofDirEntry) < l.length := (Nat.div_lt_iff_lt_mul hE).mpr (by omega)
    have hoff : (mul32 block s.bs + i % (s.bs / sizeofDirEntry) * sizeofDirEntry) % 2 ^ 64 =
        s.entryPlace l i := by
      rw [Driver.entryPlace, List.getD_eq_getElem _ _ hi, hblock hi]
    -- the block of the next entry: the same one, or its successor in the table
    have hnext : ∀ hi' : (i + 1) / (s.bs / sizeofDirEntry) < l.length,
        (if i % (s.bs / sizeofDirEntry) = s.bs / sizeofDirEntry - 1 then s.fat block else block) =
          l[(i + 1) / (s.bs / sizeofDirEntry)] := by
      intro hi'
      split_ifs with hr
      · have hq := succ_div_last hE hr
        have hstep := hlink (i / (s.bs / sizeofDirEntry)) (by omega)
        rw [hblock hi]
        simp only [hq]
        exact hstep
      · have hq := succ_div_same hE hr
        simp only [hq]
        exact hblock hi
    have hrest := ih (i + 1) _ (by omega) hnext
    rw [readDirLoop]
    simp only [run_bind, run_ite, run_readFAT, run_pure, hoff]
    split_ifs at hrest ⊢ with hr
    · simp only [Option.bind_some, hrest, List.range'_succ, List.map_cons]
    · simp only [Option.bind_some, hrest, List.range'_succ, List.map_cons]

theorem run_readDir_entries (hdvd : sizeofDirEntry ∣ s.bs)
    (hbs : 0 < s.bs) {dir : DirEntry} {b : ℕ} {l : List ℕ}
    (hdir : dir.isDirectory) (hlen : 0 < dir.len) (hstart : dir.start = b)
    (hc : Chain s.image.next s.image.Final b l) (hpos : ∀ x ∈ l, 0 < x)
    (hsize : l.length = updiv dir.len s.bs) : readFile dir s = some ((0, (s.transfers l).take dir.len), s) ∧
    readDir dir s = some (⟨0, (List.range (dir.len / sizeofDirEntry)).map fun j =>
      (DirEntry.decode ((((s.transfers l).take dir.len).drop (sizeofDirEntry * j)).take sizeofDirEntry),
        s.entryPlace l j), firstIndex ((s.transfers l).take dir.len)⟩, s) := by
  have hE : 0 < s.bs / sizeofDirEntry := Nat.div_pos (Nat.le_of_dvd hbs hdvd) (by decide)
  have hlong : dir.len ≤ l.length * s.bs := (updiv_le_iff _ _ _ hbs).mp hsize.ge
  have hslots : dir.len / sizeofDirEntry ≤ l.length * (s.bs / sizeofDirEntry) := by
    rw [← Nat.mul_div_assoc _ hdvd]
    exact Nat.div_le_div_right hlong
  have hfile : readFile dir s = some ((0, (s.transfers l).take dir.len), s) := by
    rw [readFile, run_bind, run_get, Option.bind_some, run_ite, if_neg hlen.ne', hstart]
    exact run_readFileLoop_transfers hbs dir hc hpos dir.len _ [] hlen (Nat.le_add_right _ _) hsize.ge
      fun _ => hsize.symm
  have hlink : ∀ (j : ℕ) (h : j + 1 < l.length), s.fat l[j] = l[j + 1] := fun j h =>
    fat_of_next (hc.next_getElem j h)
  have hloop := run_readDirLoop hE hlink ((s.transfers l).take dir.len) (dir.len / sizeofDirEntry) 0 dir.start
    (by omega) (fun hi => by
      rw [hstart]
      simp only [Nat.zero_div]
      rw [hc.getElem_zero])
  refine ⟨hfile, ?_⟩
  unfold readDir
  rw [run_bind, run_get, Option.bind_some, run_ite,
    if_neg (by rintro (h | h); exacts [hlen.ne' h, h hdir])]
  dsimp only
  rw [run_bind, hfile, Option.bind_some]
  dsimp only
  rw [run_ite, if_neg (lt_irrefl _), run_ite, if_neg fun h => hE.ne' h.2, run_bind]
  change (readDirLoop _ s.bs (s.bs / sizeofDirEntry) _ 0 dir.start s).bind _ = _
  rw [hloop, Option.bind_some, ← List.range_eq_range']
  rfl

def Driver.listing (s : Fs) (e : DirEntry) : List (DirEntry × ℕ) :=
  (s.image.slotsIn (s.image.chainOf e) (e.len / sizeofDirEntry)).map fun k => (s.entry k, 320 * k)

theorem content_slice (hg : Geometry s) (e : DirEntry) (i : ℕ)
    (hi : 320 * (i + 1) ≤ e.len) (hl : i / s.image.epb < (s.image.chainOf e).length) :
    ((s.content e).drop (320 * i)).take 320 =
      slice s.data (320 * s.image.slotAt (s.image.chainOf e) i) 320 := by
  have hd := Nat.div_add_mod i s.image.epb
  have hm := Nat.mod_lt i hg.epb_pos
  have hE := hg.epb_mul
  have hpos : 320 * i = i / s.image.epb * s.bs + i % s.image.epb * 320 := by
    calc 320 * i = 320 * (s.image.epb * (i / s.image.epb) + i % s.image.epb) := by rw [hd]
      _ = i / s.image.epb * (320 * s.image.epb) + i % s.image.epb * 320 := by ring
      _ = _ := by rw [hE]
  have hr : i % s.image.epb * 320 + 320 ≤ s.bs := by omega
  rw [Driver.content, List.drop_take, List.take_take, Nat.min_eq_left (by omega), hpos,
    gather_slice _ _ _ _ _ _ hl hr, slot_block _ i hl hg]

theorem run_readDir (hg : Geometry s) (e : DirEntry)
    (h : e.len ≠ 0 ∧ e.isDirectory → s.image.Readable e) :
    readDir e s = some (if e.len ≠ 0 ∧ e.isDirectory
      then ⟨0, s.listing e, firstIndex (s.content e)⟩ else ⟨-ENOTDIR, [], none⟩, s) := by
  by_cases hw : e.len ≠ 0 ∧ e.isDirectory
  · have hr := h hw
    have hE := hg.epb_pos
    have hu := updiv_pos e.len s.bs hg.bs_pos (by omega)
    have hsize : (s.image.chainOf e).length = updiv e.len s.bs := by
      rw [hr.size, Image.blocksFor, hg.image_bs]
      omega
    obtain ⟨b, hb, hc⟩ := hr.owns.start
    have hread := (run_readDir_entries hg.block hg.bs_pos hw.2 (Nat.pos_of_ne_zero hw.1) hb hc
      (fun x hx => Nat.zero_lt_of_lt (hr.owns.data x hx).1) hsize).2
    rw [transfers_gather hg hr.owns.data] at hread
    rw [if_pos hw, hread]
    refine congrArg (fun l => some (DirListing.mk 0 l _, s)) ?_
    rw [Driver.listing, Image.slotsIn, List.map_map]
    apply List.map_congr_left
    intro j hj
    have hj' := List.mem_range.mp hj
    have hlong : e.len ≤ (s.image.chainOf e).length * s.bs := (updiv_le_iff _ _ _ hg.bs_pos).mp hsize.ge
    have hblock : j / s.image.epb < (s.image.chainOf e).length := by
      rw [Nat.div_lt_iff_lt_mul hE]
      have hslots : e.len / sizeofDirEntry ≤ (s.image.chainOf e).length * (s.bs / sizeofDirEntry) := by
        rw [← Nat.mul_div_assoc _ hg.block]
        exact Nat.div_le_div_right hlong
      exact lt_of_lt_of_le hj' hslots
    have hin : 320 * (j + 1) ≤ e.len := by
      rw [show sizeofDirEntry = 320 from rfl] at hj'
      omega
    have hslot := slot_block _ j hblock hg
    refine Prod.ext ?_ ?_
    · change DirEntry.decode _ = s.entry _
      rw [entry_eq]
      exact congrArg DirEntry.decode (content_slice hg e j hin hblock)
    · have hd := hr.owns.data _ (List.getElem_mem hblock)
      have h₁ := hg.block_small hd.2
      have h₃ := Nat.mod_lt j hE
      have h₄ := hg.epb_mul
      change (mul32 (((s.image.chainOf e).getD (j / s.image.epb) 0 : ℕ) : ℤ) s.bs +
        j % s.image.epb * 320) % 2 ^ 64 = 320 * _
      rw [List.getD_eq_getElem _ _ hblock, hg.mul32_block hd.2, hslot]
      omega
  · unfold readDir
    rw [run_bind, run_get, Option.bind_some, run_ite, if_pos (by tauto), if_neg hw, run_pure]

theorem takeWhile_take {α : Type} (p : α → Bool) (n : ℕ) (l : List α) :
    (l.take n).takeWhile p = (l.takeWhile p).take n := by
  induction l generalizing n with
  | nil => simp
  | cons a l ih =>
    cases n with
    | zero => simp
    | succ n =>
      by_cases hp : p a
      · simp [hp, ih]
      · simp [hp]

/-- Which entries of a directory are `.` and `..` is told by its first name. -/
theorem firstIndex_content (hg : Geometry s) (e : DirEntry) (hlen : 320 ≤ e.len)
    (hl : 0 < (s.image.chainOf e).length) :
    firstIndex (s.content e) =
      (let name := (s.entry (s.image.slotAt (s.image.chainOf e) 0)).name.toStr
       if name = dotName then some 2 else if name = dotDotName then some 1 else none) := by
  have hc := content_slice hg e 0 (by omega) (by simpa using hl)
  rw [Nat.mul_zero, List.drop_zero] at hc
  have hname : ((s.content e).take THORNFAT_PATH_MAX).takeWhile (· ≠ 0) =
      (s.entry (s.image.slotAt (s.image.chainOf e) 0)).name.toStr.take THORNFAT_PATH_MAX := by
    have h256 : (s.content e).take 256 =
        (slice s.data (320 * s.image.slotAt (s.image.chainOf e) 0) 320).take 256 := by
      rw [← hc, List.take_take]
      rfl
    have h255 : (s.content e).take THORNFAT_PATH_MAX = ((s.content e).take 256).take THORNFAT_PATH_MAX := by
      rw [List.take_take]
      rfl
    have hstr : (s.entry (s.image.slotAt (s.image.chainOf e) 0)).name.str =
        (slice s.data (320 * s.image.slotAt (s.image.chainOf e) 0) 320).take 256 := by
      have hl : ((slice s.data (320 * s.image.slotAt (s.image.chainOf e) 0) 320).take 256).length = 256 := by
        simp
      simp only [entry_eq, DirEntry.decode, Filename.ofBytes, THORNFAT_PATH_MAX]
      rw [List.take_append_of_le_length hl.ge, List.take_of_length_le hl.le]
    rw [h255, h256, takeWhile_take, Filename.toStr, hstr]
  have hshort : ∀ t u : Str, u.length < THORNFAT_PATH_MAX → (t.take THORNFAT_PATH_MAX = u ↔ t = u) := by
    intro t u hu
    constructor
    · intro h
      have hlt := congrArg List.length h
      rw [List.length_take] at hlt
      rwa [List.take_of_length_le (by omega)] at h
    · rintro rfl
      exact List.take_of_length_le hu.le
  simp only [firstIndex, hname, hshort _ dotName (by decide), hshort _ dotDotName (by decide)]

end Directories

section Find
variable {s : Fs}

theorem run_findEntry (search : Str) (l : List (DirEntry × ℕ)) :
    findEntry search l s =
      some (l.find? fun p => search = p.1.name.toStr && !s.free p.1, s) := by
  induction l with
  | nil => rfl
  | cons p l ih =>
    obtain ⟨entry, offset⟩ := p
    rw [findEntry, run_ite]
    by_cases hn : search = entry.name.toStr
    · rw [if_pos hn, run_bind, run_isFree, Option.bind_some, run_ite]
      by_cases hf : s.free entry
      · rw [if_pos hf, ih, List.find?_cons_of_neg]
        simp [hf]
      · rw [if_neg hf, run_pure, List.find?_cons_of_pos]
        simp [hn, hf]
    · rw [if_neg hn, ih, List.find?_cons_of_neg]
      simp [hn]

theorem find_listing (p : ℕ) (search : Str) :
    (s.listing (s.entry p)).find? (fun q => search = q.1.name.toStr && !s.free q.1) =
      (s.image.findSlot p search).map fun k => (s.entry k, 320 * k) := by
  rw [Driver.listing, List.find?_map]
  refine congrArg (Option.map _) ?_
  unfold Image.findSlot
  congr 1
  funext k
  simp only [Function.comp, eq_comm (a := search)]
  rfl

def Driver.found (s : Fs) (last_name : Str) : Except ℤ ℕ → FindResult
  | .error status => .fail status
  | .ok k => ⟨0, s.entry k, 320 * k, last_name⟩

theorem run_findStep (hg : Geometry s) (p : ℕ)
    (h : s.image.Walkable p → s.image.Readable (s.entry p)) :
    readDir (s.entry p) s = some (if s.image.Walkable p
      then ⟨0, s.listing (s.entry p), firstIndex (s.content (s.entry p))⟩ else ⟨-ENOTDIR, [], none⟩, s) := by
  have hw : s.image.Walkable p ↔ (s.entry p).len ≠ 0 ∧ (s.entry p).isDirectory := Image.walkable_iff
  rw [run_readDir hg _ fun hw' => h (hw.mpr hw')]
  simp only [hw]

theorem pathFirst_some (path : Str) (h : path ≠ []) : ∃ search rest, pathFirst path = (some search, rest) := by
  unfold pathFirst
  rw [if_neg h]
  exact ⟨_, _, rfl⟩

theorem components_ne_nil (path : Str) (h : path ≠ []) : components path ≠ [] := by
  obtain ⟨search, rest, hp⟩ := pathFirst_some path h
  rw [components_step path search rest hp]
  simp

/-- `find` resolves a path to the slot its components lead to. -/
theorem run_findLoop (hg : Geometry s) (fuel p : ℕ) (path : Str) (hpath : path ≠ [])
    (hfuel : path.length < fuel) (h : s.image.WalkReadable p (components path)) :
    findLoop false fuel path (s.entry p) (320 * p) s =
      some (s.found [] (s.image.resolve p (components path)), s) := by
  induction fuel generalizing p path with
  | zero => omega
  | succ fuel ih =>
    obtain ⟨search, rest, hp⟩ := pathFirst_some path hpath
    have hlen := pathFirst_length path search rest hp
    rw [components_step path search rest hp] at h ⊢
    have hstep := run_findStep hg p fun hw => (h hw).1
    simp only [findLoop, hp, Bool.false_eq_true, and_false, ite_false, run_bind, hstep,
      Option.bind_some, Image.resolve]
    by_cases hw : s.image.Walkable p
    · simp only [hw, ite_true, lt_self_iff_false, ite_false, run_ite, run_bind, run_findEntry,
        Option.bind_some, find_listing]
      cases hk : s.image.findSlot p search with
      | none => rfl
      | some k =>
        have hrest := (h hw).2 k hk
        simp only [Option.map_some, run_ite, run_pure]
        by_cases hr : rest = []
        · simp only [hr, ite_true]
          rfl
        · rw [if_neg hr] at hrest
          simp only [hr, ite_false, components_ne_nil rest hr]
          by_cases hf : (s.entry k).isFile
          · have hf' : (s.image.entry k).isFile = true := hf
            simp only [hf, hf', ite_true]
            rfl
          · have hf' : ¬ (s.image.entry k).isFile = true := hf
            simp only [hf, hf']
            exact ih k rest hr (by omega) hrest
    · simp only [hw, run_ite, run_pure]
      rfl

theorem run_findLoop_parent (hg : Geometry s) (fuel p : ℕ) (path : Str) (hpath : path ≠ [])
    (hfuel : path.length < fuel) (h : s.image.WalkReadable p (components path).dropLast) :
    findLoop true fuel path (s.entry p) (320 * p) s =
      some (s.found ((components path).getLastD []) (s.image.walkDirs p (components path).dropLast), s) := by
  induction fuel generalizing p path with
  | zero => omega
  | succ fuel ih =>
    obtain ⟨search, rest, hp⟩ := pathFirst_some path hpath
    have hlen := pathFirst_length path search rest hp
    rw [components_step path search rest hp] at h ⊢
    by_cases hr : rest = []
    · simp only [findLoop, hp, hr, ite_true, and_self, run_pure]
      rfl
    · have hne := components_ne_nil rest hr
      simp only [hr, ite_false] at h ⊢
      rw [List.dropLast_cons_of_ne_nil hne] at h ⊢
      have hlast : (search :: components rest).getLastD [] = (components rest).getLastD [] := by
        rw [List.getLastD_cons, List.getLastD_eq_getLast?, List.getLastD_eq_getLast?,
          List.getLast?_eq_getLast_of_ne_nil hne]
        rfl
      have hstep := run_findStep hg p fun hw => (h hw).1
      simp only [findLoop, hp, hr, false_and, ite_false, run_bind, hstep,
        Option.bind_some, Image.walkDirs, hlast]
      by_cases hw : s.image.Walkable p
      · simp only [hw, ite_true, lt_self_iff_false, ite_false, run_ite, run_bind, run_findEntry,
          Option.bind_some, find_listing]
        cases hk : s.image.findSlot p search with
        | none => rfl
        | some k =>
          have hrest := (h hw).2 k hk
          simp only [Option.map_some, run_ite, run_pure]
          by_cases hf : (s.entry k).isFile
          · have hf' : (s.image.entry k).isFile = true := hf
            simp only [hf, hf', ite_true]
            rfl
          · have hf' : ¬ (s.image.entry k).isFile = true := hf
            simp only [hf, hf']
            exact ih k rest hr (by omega) hrest
      · simp only [hw, run_ite, run_pure]
        rfl

theorem run_readFileLoop_short (hg : Geometry s) (e : DirEntry) {b : ℕ} {l : List ℕ}
    (hc : Chain s.image.next s.image.Final b l) (hd : ∀ x ∈ l, s.image.IsData x) (remaining fuel : ℕ)
    (out : List UInt8)
    (hfuel : l.length < fuel) (hlong : l.length * s.bs < remaining) :
    ∃ out', readFileLoop e s.bs fuel remaining b out s = some ((-EINVAL, out'), s) := by
  induction hc generalizing remaining fuel out with
  | @last b hf =>
    obtain ⟨fuel, rfl⟩ : ∃ n, fuel = n + 1 := ⟨fuel - 1, by omega⟩
    have hfat : s.fat b = FINAL := hf
    have hbs := hg.bs_pos
    rw [List.length_singleton, Nat.one_mul] at hlong
    refine ⟨out, ?_⟩
    rw [readFileLoop, run_ite, if_neg (by omega), run_ite, if_neg (by omega), run_bind, run_readFAT,
      Option.bind_some, run_ite, if_pos hfat, run_pure]
  | @link b c l hn hc ih =>
    obtain ⟨fuel, rfl⟩ : ∃ n, fuel = n + 1 := ⟨fuel - 1, by omega⟩
    have hbs := hg.bs_pos
    rw [List.length_cons, Nat.succ_mul] at hlong
    rw [List.length_cons] at hfuel
    have hfat := fat_of_next hn
    have hdb := hd b (by simp)
    have hdc := hd c (List.mem_cons_of_mem _ hc.head_mem)
    have hb : 1 ≤ (b : ℤ) := by
      have := hdb.1
      omega
    have hne : s.fat b ≠ FINAL := by
      rw [hfat]
      simp only [FINAL]
      omega
    obtain ⟨out', hrun⟩ := ih (fun x hx => hd x (List.mem_cons_of_mem _ hx)) (remaining - s.bs) fuel
      (out ++ s.peek (mul32 b s.bs) s.bs) (by omega) (by omega)
    refine ⟨out', ?_⟩
    rw [readFileLoop, run_ite, if_neg (by omega), run_ite, if_neg (by omega), run_bind, run_readFAT,
      Option.bind_some, run_ite,
      if_neg hne, run_bind, run_checkBlock _ hb, Option.bind_some, run_bind, run_partitionRead, Option.bind_some]
    simp only [run_bind, run_readFAT, Option.bind_some, lt_self_iff_false, ite_false, run_ite]
    rw [hfat]
    exact hrun

theorem run_readDir_short (hg : Geometry s) {e : DirEntry} {l : List ℕ} (ho : s.image.Owns e l)
    (hd : e.isDirectory) (hlong : l.length * s.bs < e.len) : readDir e s = some (⟨-EINVAL, [], none⟩, s) := by
  have hpos : e.len ≠ 0 := by omega
  obtain ⟨b, hb, hc⟩ := ho.start
  have hfuel : l.length ≤ l.length * s.bs := Nat.le_mul_of_pos_right _ hg.bs_pos
  obtain ⟨out, hrun⟩ :=
    run_readFileLoop_short hg e hc ho.data e.len (e.len + walkFuel s.superblock) [] (by omega) hlong
  have hread : readFile e s = some ((-EINVAL, out), s) := by
    rw [readFile, run_bind, run_get, Option.bind_some, run_ite, if_neg hpos, hb]
    exact hrun
  unfold readDir
  rw [run_bind, run_get, Option.bind_some, run_ite, if_neg (by tauto), run_bind, hread, Option.bind_some]
  dsimp only
  rw [run_ite, if_pos (by decide), run_pure]

theorem run_findLoop_stuck
    (hg : Geometry s) {pre : List Str} {name : Str} {rest : List Str} {p q fuel : ℕ} {path : Str}
    (hpath : path ≠ []) (hfuel : path.length < fuel) (hnames : components path = pre ++ name :: rest)
    (hwalk : s.image.WalkReadable q pre) (hq : s.image.walkDirs q pre = .ok p) {status : ℤ} (hneg : status < 0)
    (hstuck : readDir (s.entry p) s = some (⟨status, [], none⟩, s)) :
    findLoop false fuel path (s.entry q) (320 * q) s = some (.fail status, s) := by
  induction pre generalizing fuel path q with
  | nil =>
    obtain ⟨fuel, rfl⟩ : ∃ n, fuel = n + 1 := ⟨fuel - 1, by omega⟩
    obtain ⟨search, next, hp⟩ := pathFirst_some path hpath
    cases hq
    simp only [findLoop, hp, Bool.false_eq_true, and_false, ite_false, run_bind, hstuck, Option.bind_some,
      run_ite, hneg, ite_true, run_pure]
  | cons first pre ih =>
    obtain ⟨fuel, rfl⟩ : ∃ n, fuel = n + 1 := ⟨fuel - 1, by omega⟩
    obtain ⟨search, next, hp⟩ := pathFirst_some path hpath
    have hlen := pathFirst_length path search next hp
    rw [components_step path search next hp, List.cons_append, List.cons.injEq] at hnames
    obtain ⟨rfl, hnames⟩ := hnames
    have hnext : next ≠ [] := by
      rintro rfl
      rw [if_pos rfl] at hnames
      have := congrArg List.length hnames
      simp at this
    rw [if_neg hnext] at hnames
    rw [Image.walkDirs] at hq
    split_ifs at hq with hw
    cases hk : s.image.findSlot q search with
    | none => simp [hk] at hq
    | some k =>
      simp only [hk] at hq
      split_ifs at hq with hf
      obtain ⟨hread, hrest⟩ := hwalk hw
      have hstep := run_findStep hg q fun _ => hread
      have hf' : (s.entry k).isFile = false := Bool.eq_false_iff.mpr hf
      have hnext' : findLoop false fuel next (s.entry k) (320 * k) s = some (.fail status, s) :=
        ih hnext (by omega) hnames (hrest k hk) hq
      simp only [findLoop, hp, Bool.false_eq_true, and_false, ite_false, run_bind, hstep, Option.bind_some, hw,
        ite_true, lt_self_iff_false, run_ite, run_findEntry, find_listing, hk, Option.map_some, hnext, hf']
      exact hnext'

theorem entry_start_root (hw : WellFormed s) : (s.entry s.image.rootSlot).start = s.superblock.startBlock := by
  rw [hw.geometry.startBlock]
  exact_mod_cast hw.image.root_start

/-- The cached root, if there is one, is the root entry of the image. -/
def Driver.Synced (s : Fs) : Prop := s.root.start ≠ UNUSABLE → s.root = s.entry s.image.rootSlot

theorem load_eq (hroot : s.Synced) (h : s.root.start ≠ UNUSABLE) : s.load = s := by
  rw [Driver.load, ← hroot h]

theorem root_offset (hg : Geometry s) : mul32 s.superblock.startBlock s.bs = 320 * s.image.rootSlot := by
  have h := hg.mul32_block hg.inside
  rw [hg.startBlock]
  calc mul32 (s.fatBlocks + 1) s.bs = (s.fatBlocks + 1) * s.bs := by exact_mod_cast h
    _ = 320 * s.image.rootSlot := by
      rw [← hg.epb_mul, Image.rootSlot, Image.startBlock, Driver.image]
      ring

theorem run_getRoot (hg : Geometry s) (hroot : s.Synced) :
    getRoot s = some ((s.entry s.image.rootSlot, 320 * s.image.rootSlot), s.load) := by
  unfold getRoot
  simp only [run_bind, run_get, Option.bind_some, run_ite, run_pure, run_partitionRead, run_modify]
  rw [show mul32 s.superblock.startBlock s.superblock.blockSize = 320 * s.image.rootSlot from
    root_offset hg]
  by_cases hr : s.root.start = UNUSABLE
  · rw [if_neg (by simpa using hr)]
    have hd := hg.data_start
    have hp : 320 * s.image.rootSlot = (s.fatBlocks + 1) * s.bs := by
      rw [← hg.epb_mul, Image.rootSlot, Image.startBlock, Driver.image]
      ring
    have he := entry_eq s s.image.rootSlot
    rw [peek_eq_slice _ _ _ (hg.no_wrap (by omega)), show sizeofDirEntry = 320 from rfl, ← he]
    rfl
  · rw [if_pos hr, load_eq hroot hr, ← hroot hr]

theorem load_entry (s : Fs) : s.load.entry = s.entry := rfl

theorem SameFrame.load (s : Fs) : SameFrame s s.load := ⟨rfl, rfl, rfl⟩

theorem pathNames_eq (path : Str) (h : ¬ (path = [slash] ∨ path = [])) :
    pathNames path = components path := if_neg h

def Driver.lookup (s : Fs) (path : Str) : Except ℤ ℕ := s.image.resolve s.image.rootSlot (pathNames path)

theorem run_find_synced (hg : Geometry s) (hroot : s.Synced) (path : Str)
    (h : s.image.WalkReadable s.image.rootSlot (pathNames path)) :
    find path false s = some (s.found [] (s.lookup path), s.load) := by
  unfold find Driver.lookup
  simp only [run_bind, run_getRoot hg hroot, Option.bind_some, run_ite]
  by_cases hp : path = [slash] ∨ path = []
  · rw [if_pos hp, run_pure, pathNames, if_pos hp]
    rfl
  · rw [pathNames_eq path hp] at h ⊢
    rw [if_neg hp]
    exact run_findLoop (s := s.load) ((SameFrame.load s).geometry hg) _ _ path (by tauto)
      (by omega) h

theorem run_find (hw : WellFormed s) (path : Str)
    (h : s.image.WalkReadable s.image.rootSlot (pathNames path)) :
    find path false s = some (s.found [] (s.lookup path), s.load) := run_find_synced hw.geometry hw.root path h

/-- A directory whose chain ends before its length is through. -/
structure Driver.Cut (s : Fs) (k : ℕ) : Prop where
  directory : (s.entry k).isDirectory
  owns : s.image.Owns (s.entry k) (s.image.chainOf (s.entry k))
  short : (s.image.chainOf (s.entry k)).length * s.bs < (s.entry k).len

/-- The walk along the path comes to a directory whose chain is too short. -/
def Driver.Stuck (s : Fs) (path : Str) : Prop := ∃ pre name rest p, pathNames path = pre ++ name :: rest ∧
  s.image.WalkReadable s.image.rootSlot pre ∧ s.image.walkDirs s.image.rootSlot pre = .ok p ∧ s.Cut p

theorem run_find_stuck (hw : WellFormed s) {path : Str} (h : s.Stuck path) :
    find path false s = some (.fail (-EINVAL), s.load) := by
  obtain ⟨pre, name, rest, p, hnames, hwalk, hp, hcut⟩ := h
  have hroot : ¬ (path = [slash] ∨ path = []) := fun hroot => by
    rw [pathNames, if_pos hroot] at hnames
    exact absurd hnames.symm (by simp)
  rw [pathNames_eq path hroot] at hnames
  have hg : Geometry s.load := (SameFrame.load s).geometry hw.geometry
  have hstuck := run_readDir_short (s := s.load) hg hcut.owns hcut.directory hcut.short
  unfold find
  simp only [run_bind, run_getRoot hw.geometry hw.root, Option.bind_some, run_ite]
  rw [if_neg hroot]
  exact run_findLoop_stuck (s := s.load) hg (by tauto) (Nat.lt_succ_self _) hnames hwalk hp (by decide) hstuck

theorem find_live (hw : WellFormed s) {path : Str} (hp : NoDots path) {found : FindResult} {t : Fs}
    (hf : find path false s = some (found, t)) (h0 : 0 ≤ found.status) :
    t = s.load ∧ ∃ k, s.lookup path = .ok k ∧ s.image.Live k ∧ found = ⟨0, s.entry k, 320 * k, []⟩ := by
  have ha := hw.image.avoidsCopies .root hp.1 hp.2
  rw [run_find hw path (hw.image.walkReadable .root ha)] at hf
  simp only [Option.some.injEq, Prod.mk.injEq] at hf
  obtain ⟨rfl, rfl⟩ := hf
  refine ⟨rfl, ?_⟩
  cases hl : s.lookup path with
  | error status =>
    rw [hl] at h0
    have := Image.resolve_error hl
    simp only [Driver.found, FindResult.fail] at h0
    omega
  | ok k => exact ⟨k, rfl, Image.resolve_live .root ha hl, rfl⟩

def Driver.lookupParent (s : Fs) (path : Str) : Except ℤ ℕ :=
  s.image.walkDirs s.image.rootSlot (pathNames path).dropLast

theorem run_find_parent (hw : WellFormed s) (path : Str)
    (h : s.image.WalkReadable s.image.rootSlot (pathNames path).dropLast) :
    find path true s =
      some (s.found ((pathNames path).getLastD []) (s.lookupParent path), s.load) := by
  unfold find Driver.lookupParent
  simp only [run_bind, run_getRoot hw.geometry hw.root, Option.bind_some, run_ite]
  by_cases hp : path = [slash] ∨ path = []
  · rw [if_pos hp, run_pure, pathNames, if_pos hp]
    rfl
  · rw [pathNames_eq path hp] at h ⊢
    rw [if_neg hp]
    exact run_findLoop_parent (s := s.load) ((SameFrame.load s).geometry hw.geometry) _ _ path (by tauto)
      (by omega) h

end Find

end Thorn.FatDriver

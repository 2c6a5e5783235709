import Thorn.FatCalls
import Thorn.WriteContent

set_option autoImplicit false

namespace Thorn.FatDriver
open ByteStore Paths FatTypes FatOperations FatImage LinkedChain

def ReadOnly {α : Type} (x : Action FlatDevice α) : Prop := ∀ s r t, x s = some (r, t) → t = s

section ReadOnly
variable {α β : Type}

theorem ReadOnly.pure (a : α) : ReadOnly (pure a : Action FlatDevice α) := by
  intro s r t h
  exact (congrArg Prod.snd (Option.some.inj h)).symm

theorem ReadOnly.hang : ReadOnly (FatDriver.hang : Action FlatDevice α) := by
  intro s r t h
  exact absurd h (by simp)

theorem ReadOnly.bind {x : Action FlatDevice α} {f : α → Action FlatDevice β} (hx : ReadOnly x)
    (hf : ∀ a, ReadOnly (f a)) : ReadOnly (x >>= f) := by
  intro s r t h
  obtain ⟨⟨a, u⟩, h₁, h₂⟩ := Option.bind_eq_some_iff.mp h
  obtain rfl := hx s a u h₁
  exact hf a u r t h₂

theorem ReadOnly.ite {c : Prop} [Decidable c] {x y : Action FlatDevice α} (hx : ReadOnly x) (hy : ReadOnly y) :
    ReadOnly (if c then x else y) := by
  split_ifs
  exacts [hx, hy]

theorem readOnly_get : ReadOnly (get : Action FlatDevice Fs) := by
  intro s r t h
  exact (congrArg Prod.snd (Option.some.inj h)).symm

theorem readOnly_partitionRead (n p : ℕ) : ReadOnly (partitionRead n p) := by
  intro s r t h
  exact (congrArg Prod.snd (Option.some.inj h)).symm

theorem readOnly_readFAT (b : ℤ) : ReadOnly (readFAT b) := by
  intro s r t h
  rw [run_readFAT] at h
  exact (congrArg Prod.snd (Option.some.inj h)).symm

theorem readOnly_isFree (e : DirEntry) : ReadOnly (isFree e) := by
  intro s r t h
  rw [run_isFree] at h
  exact (congrArg Prod.snd (Option.some.inj h)).symm

theorem readOnly_checkBlock (b : ℤ) : ReadOnly (checkBlock b) := .ite .hang (.pure _)

theorem readOnly_readSkipLoop (bs fuel : ℕ) (offset_left block : ℤ) :
    ReadOnly (readSkipLoop bs fuel offset_left block) := by
  induction fuel generalizing offset_left block with
  | zero => exact .hang
  | succ fuel ih =>
    refine .ite (.bind (readOnly_readFAT _) fun a => ?_) (.pure _)
    exact .ite (.pure _) (ih _ _)

theorem readOnly_readBlockLoop (bs fuel size_left position : ℕ) (block : ℤ) (buffer : List UInt8) :
    ReadOnly (readBlockLoop bs fuel size_left position block buffer) := by
  induction fuel generalizing size_left position block buffer with
  | zero => exact .hang
  | succ fuel ih =>
    refine .ite (.pure _) (.bind (readOnly_partitionRead _ _) fun a => ?_)
    refine .ite (.pure _) (.ite (.pure _) (.bind (readOnly_readFAT _) fun b => ?_))
    exact .ite (.pure _) (ih _ _ _ _)

theorem readOnly_readData (bs size : ℕ) (block offset_left : ℤ) :
    ReadOnly (readData bs size block offset_left) := by
  refine .bind readOnly_get fun d => .ite (.bind (readOnly_partitionRead _ _) fun a => ?_) (.ite
    (.bind (readOnly_partitionRead _ _) fun a => ?_) (readOnly_readBlockLoop _ _ _ _ _ _))
  · exact .ite (.pure _) (.pure _)
  · exact .ite (.pure _) (readOnly_readBlockLoop _ _ _ _ _ _)

theorem readOnly_listEntries (l : List (DirEntry × ℕ)) : ReadOnly (listEntries l) := by
  induction l with
  | nil => exact .pure _
  | cons p l ih => exact .bind (readOnly_isFree _) fun _ => .bind ih fun _ => .pure _

end ReadOnly

section Ends
variable {s t : Fs} {status : ℤ}

theorem read_ends (hw : WellFormed s) {path : Str}
    (hc : s.Clean path) {size : ℕ} {offset : ℤ} {r : ℤ × List UInt8}
    (h : FatOperations.read path size offset s = some (r, t)) :
    t = s.load ∨ ∃ k, s.lookup path = .ok k ∧ t = s.load.storeEntry (s.entry k) (320 * k) := by
  have hfind := run_find_clean hw hc
  unfold FatOperations.read at h
  rw [run_bind, run_get, Option.bind_some, run_bind, hfind, Option.bind_some] at h
  dsimp only at h
  rw [run_ite] at h
  by_cases hneg : (s.found [] (s.lookup path)).status < 0
  · rw [if_pos hneg] at h
    exact .inl (congrArg Prod.snd (Option.some.inj h)).symm
  rw [if_neg hneg, run_ite] at h
  by_cases hempty : (s.found [] (s.lookup path)).entry.len = 0 ∧ (s.found [] (s.lookup path)).entry.isDirectory
  · rw [if_pos hempty] at h
    exact .inl (congrArg Prod.snd (Option.some.inj h)).symm
  rw [if_neg hempty, run_ite] at h
  by_cases hend : (s.found [] (s.lookup path)).entry.len ≤ toSize offset
  · rw [if_pos hend] at h
    exact .inl (congrArg Prod.snd (Option.some.inj h)).symm
  rw [if_neg hend, run_bind] at h
  obtain ⟨⟨skipped, u⟩, hskip, hrest⟩ := Option.bind_eq_some_iff.mp h
  obtain rfl := readOnly_readSkipLoop _ _ _ _ _ _ _ hskip
  cases skipped with
  | none => exact .inl (congrArg Prod.snd (Option.some.inj hrest)).symm
  | some q =>
    dsimp only at hrest
    rw [run_bind] at hrest
    obtain ⟨⟨checked, v⟩, hcheck, hrest⟩ := Option.bind_eq_some_iff.mp hrest
    obtain rfl := readOnly_checkBlock _ _ _ _ hcheck
    rw [run_bind] at hrest
    obtain ⟨⟨⟨status, buffer⟩, w⟩, hdata, hrest⟩ := Option.bind_eq_some_iff.mp hrest
    obtain rfl := readOnly_readData _ _ _ _ _ _ _ hdata
    dsimp only at hrest
    rw [run_ite] at hrest
    by_cases hst : status < 0
    · rw [if_pos hst] at hrest
      exact .inl (congrArg Prod.snd (Option.some.inj hrest)).symm
    · rw [if_neg hst, run_bind, run_writeEntry, Option.bind_some, run_ite, if_neg (lt_irrefl _),
        run_pure] at hrest
      cases hl : s.lookup path with
      | error status =>
        rw [hl] at hneg
        exact absurd (lookup_neg hl) hneg
      | ok k =>
        rw [hl] at hrest
        exact .inr ⟨k, rfl, (congrArg Prod.snd (Option.some.inj hrest)).symm⟩

theorem readdir_ends (hw : WellFormed s) {path : Str}
    (hc : s.Opens path fun e => e.isDirectory) {r : ℤ × List (Str × ℕ)}
    (h : readdir path s = some (r, t)) : t = s.load := by
  have hfind := run_find_clean hw hc.1
  unfold readdir at h
  rw [run_bind, hfind, Option.bind_some, run_ite] at h
  dsimp only at h
  cases hl : s.lookup path with
  | error status =>
    rw [hl, if_pos (show (Driver.found s [] (.error status)).status < 0 from lookup_neg hl)] at h
    exact (congrArg Prod.snd (Option.some.inj h)).symm
  | ok k =>
    rw [hl, if_neg (show ¬ (Driver.found s [] (.ok k)).status < 0 from lt_irrefl _), run_ite] at h
    by_cases hd : ¬ (Driver.found s [] (.ok k)).entry.isDirectory
    · rw [if_pos hd] at h
      exact (congrArg Prod.snd (Option.some.inj h)).symm
    · have hr : s.load.image.Readable (s.entry k) := hc.2 k hl (not_not.mp hd)
      have hread := run_readDir hw.load.geometry (s.entry k) fun _ => hr
      rw [if_neg hd, run_bind, run_get, Option.bind_some, run_bind] at h
      obtain ⟨⟨listing, u⟩, hlisting, hrest⟩ := Option.bind_eq_some_iff.mp h
      obtain ⟨-, rfl⟩ := Prod.mk.inj (Option.some.inj (hread.symm.trans hlisting))
      rw [run_ite] at hrest
      by_cases hst : listing.status < 0
      · rw [if_pos hst] at hrest
        exact (congrArg Prod.snd (Option.some.inj hrest)).symm
      · rw [if_neg hst, run_bind] at hrest
        obtain ⟨⟨calls, v⟩, hcalls, hrest⟩ := Option.bind_eq_some_iff.mp hrest
        obtain rfl := readOnly_listEntries _ _ _ _ hcalls
        exact (congrArg Prod.snd (Option.some.inj hrest)).symm

def stamped (e : DirEntry) (time_now : BitVec 64) : DirEntry :=
  { e with times := { e.times with accessed := time_now, modified := time_now } }

theorem run_utimens (hw : WellFormed s) {path : Str} (hc : s.Clean path) (time_now : BitVec 64) :
    utimens path time_now s = some (match s.lookup path with
      | .error status => (status, s.load)
      | .ok k => (0, s.load.storeEntry (stamped (s.entry k) time_now) (320 * k))) := by
  have hfind := run_find_clean hw hc
  unfold utimens
  rw [run_bind, hfind, Option.bind_some]
  cases hl : s.lookup path with
  | error status =>
    rw [run_ite, if_pos (show (Driver.found s [] (.error status)).status < 0 from lookup_neg hl), run_pure]
    rfl
  | ok k =>
    rw [run_ite, if_neg (show ¬ (Driver.found s [] (.ok k)).status < 0 from lt_irrefl _), run_bind,
      run_writeEntry, Option.bind_some, run_ite, if_neg (lt_irrefl _), run_pure]
    rfl

def Driver.dirRemoved (s : Fs) (k : ℕ) : Fs :=
  ((s.clearCells (s.image.chain k)).addFree (s.image.chain k).length).storeEntry
    (((s.entry k).setStart 0).setLength 0) (320 * k)

/-- What `hasStuff` says of an entry. -/
def Driver.stuff (s : Fs) (e : DirEntry) : Bool :=
  if e.isFile then !s.free e else e.isDirectory && (e.name.toStr ≠ dotDotName ∧ 0 < e.len)

theorem run_hasStuff (e : DirEntry) (s : Fs) : hasStuff e s = some (s.stuff e, s) := by
  unfold hasStuff Driver.stuff
  rw [run_ite]
  by_cases hf : e.isFile
  · simp only [hf, ite_true, run_bind, run_isFree, Option.bind_some, run_pure]
  · by_cases hd : e.isDirectory
    · simp only [hf, hd, ite_false, ite_true, run_ite, run_pure, Bool.true_and, Bool.false_eq_true]
    · simp only [hf, hd, ite_false, run_ite, run_pure, Bool.false_and, Bool.false_eq_true]

theorem run_anyStuff (l : List DirEntry) (s : Fs) : anyStuff l s = some (l.any s.stuff, s) := by
  induction l with
  | nil => rfl
  | cons e l ih =>
    rw [anyStuff, run_bind, run_hasStuff, Option.bind_some, run_ite, List.any_cons]
    by_cases he : s.stuff e
    · rw [if_pos he, run_pure, he, Bool.true_or]
    · rw [if_neg he, ih, Bool.eq_false_iff.mpr he, Bool.false_or]

def Driver.Stuffed (s : Fs) (k : ℕ) : Prop := 1 < s.image.count k ∧ ∃ j ∈ s.image.slots k, s.stuff (s.entry j)

instance (s : Fs) (k : ℕ) : Decidable (s.Stuffed k) := inferInstanceAs (Decidable (_ ∧ _))

theorem listing_entries (s : Fs) (k : ℕ) :
    (s.listing (s.entry k)).map Prod.fst = (s.image.slots k).map s.entry := by
  rw [Driver.listing, List.map_map]
  rfl

theorem run_directoryEmpty (hg : Geometry s) {k : ℕ} (hr : s.image.Readable (s.entry k))
    (hd : (s.entry k).isDirectory) : directoryEmpty (s.entry k) s = some (if s.Stuffed k then 0 else 1, s) := by
  by_cases h0 : (s.entry k).len = 0
  · have hnone : ¬ s.Stuffed k := fun h => by
      have hcount : 1 < (s.entry k).len / sizeofDirEntry := h.1
      rw [h0, Nat.zero_div] at hcount
      exact absurd hcount (by decide)
    unfold directoryEmpty
    rw [run_ite, if_neg (not_not.mpr hd), run_ite, if_pos h0, run_pure, if_neg hnone]
  have hread := run_readDir hg (s.entry k) fun _ => hr
  have hlen : (s.listing (s.entry k)).length = s.image.count k := by
    have := congrArg List.length (listing_entries s k)
    rw [List.length_map, List.length_map] at this
    rw [this, Image.slots, Image.slotsIn, List.length_map, List.length_range]
  have hany : (((s.listing (s.entry k)).map Prod.fst).any s.stuff) = true ↔ ∃ j ∈ s.image.slots k,
      s.stuff (s.entry j) := by
    rw [listing_entries, List.any_map, List.any_eq_true]
    rfl
  rw [if_pos ⟨h0, hd⟩] at hread
  unfold directoryEmpty
  rw [run_ite, if_neg (not_not.mpr hd), run_ite, if_neg h0, run_bind, hread, Option.bind_some]
  dsimp only
  rw [run_ite, if_neg (lt_irrefl _), run_ite, hlen]
  by_cases hone : s.image.count k ≤ 1
  · rw [if_pos hone, if_neg fun h : s.Stuffed k => absurd h.1 (not_lt.mpr hone), run_pure]
  · rw [if_neg hone, run_bind, run_anyStuff, Option.bind_some, run_ite]
    by_cases hstuff : ∃ j ∈ s.image.slots k, s.stuff (s.entry j)
    · rw [if_pos (hany.mpr hstuff), if_pos (show s.Stuffed k from ⟨not_le.mp hone, hstuff⟩), run_pure]
    · rw [if_neg (mt hany.mp hstuff), if_neg fun h : s.Stuffed k => hstuff h.2, run_pure]

theorem run_rmdir (hw : WellFormed s) {path : Str} (hc : s.Opens path fun e => e.isDirectory) :
    rmdir path s = some (if path = [slash] ∨ path = [] then (-EINVAL, s) else
      match s.lookup path with
      | .error status => (status, s.load)
      | .ok k => if (s.entry k).isDirectory = false then (-ENOTDIR, s.load)
        else if s.Stuffed k then (-ENOTEMPTY, s.load) else (0, s.load.dirRemoved k)) := by
  have hfind := run_find_clean hw hc.1
  unfold rmdir
  rw [run_ite]
  by_cases hroot : path = [slash] ∨ path = []
  · rw [if_pos hroot, if_pos hroot, run_pure]
  rw [if_neg hroot, if_neg hroot, run_bind, hfind, Option.bind_some, run_ite]
  dsimp only
  cases hl : s.lookup path with
  | error status => rw [if_pos (show (Driver.found s [] (.error status)).status < 0 from lookup_neg hl), run_pure]; rfl
  | ok k =>
    rw [if_neg (show ¬ (Driver.found s [] (.ok k)).status < 0 from lt_irrefl _), run_ite]
    by_cases hd : (s.entry k).isDirectory
    · have hr : s.load.image.Readable (s.entry k) := hc.2 k hl hd
      have hforget := run_forget hw.load.geometry hr.owns
      have hempty := run_directoryEmpty hw.load.geometry (k := k) hr hd
      rw [if_neg (not_not.mpr (show (Driver.found s [] (.ok k)).entry.isDirectory from hd)), run_bind]
      change (directoryEmpty (s.entry k) s.load).bind _ = _
      have hd' : ¬ (s.entry k).isDirectory = false := by simp [hd]
      dsimp only
      rw [if_neg hd']
      by_cases hst : s.Stuffed k
      · have hst' : s.load.Stuffed k := hst
        have h0 : (s.entry k).len ≠ 0 := fun h0 => by
          have hcount : 1 < (s.entry k).len / sizeofDirEntry := hst.1
          rw [h0, Nat.zero_div] at hcount
          exact absurd hcount (by decide)
        have hread := run_readDir hw.load.geometry (s.entry k) fun _ => hr
        rw [if_pos hst', load_entry] at hempty
        rw [if_pos ⟨h0, hd⟩] at hread
        rw [if_pos hst, hempty, Option.bind_some, run_ite, if_pos rfl, run_bind]
        change (readDir (s.entry k) s.load).bind _ = _
        rw [hread, Option.bind_some, run_ite, if_neg (lt_irrefl _), run_pure]
      · have hst' : ¬ s.load.Stuffed k := hst
        rw [if_neg hst', load_entry] at hempty
        rw [if_neg hst, hempty, Option.bind_some, run_ite, if_neg one_ne_zero, run_bind]
        change (forget (s.entry k).start s.load).bind _ = _
        rw [hforget, Option.bind_some, run_bind, run_writeEntry, Option.bind_some, run_pure]
        rfl
    · rw [if_pos (show ¬ (Driver.found s [] (.ok k)).entry.isDirectory from hd), run_pure]
      dsimp only
      rw [if_pos (by simpa using hd)]

theorem run_writeSkipLoop_end (hg : Geometry s) {b : ℕ} {l : List ℕ} (hc : Chain s.image.next s.image.Final b l)
    (fuel : ℕ) (hfuel : l.length * s.bs < fuel) :
    writeSkipLoop s.bs fuel (l.length * s.bs : ℕ) b s = some ((FINAL, 0), s) := by
  have hbs := hg.bs_pos
  induction hc generalizing fuel with
  | @last b hf =>
    obtain ⟨fuel, rfl⟩ : ∃ m, fuel = m + 2 := ⟨fuel - 2, by simp only [List.length_singleton] at hfuel; omega⟩
    have hfat : s.fat b = FINAL := hf
    rw [writeSkipLoop, run_ite, if_pos (by simp), run_bind, run_readFAT, Option.bind_some, hfat, writeSkipLoop,
      run_ite, if_neg (by simp only [List.length_singleton]; omega), run_pure]
    simp
  | @link b c l hn t ih =>
    obtain ⟨fuel, rfl⟩ : ∃ m, fuel = m + 1 := ⟨fuel - 1, by omega⟩
    have hlen : (b :: l).length * s.bs = l.length * s.bs + s.bs := by rw [List.length_cons, Nat.succ_mul]
    rw [hlen] at hfuel ⊢
    have hrest := ih fuel (by omega)
    have hleft : ((l.length * s.bs + s.bs : ℕ) : ℤ) - s.bs = (l.length * s.bs : ℕ) := by omega
    rw [writeSkipLoop, run_ite, if_pos (by omega), run_bind, run_readFAT, Option.bind_some, fat_of_next hn,
      hleft, hrest]

theorem write_stops (hw : WellFormed s) {path : Str}
    (hc : s.Opens path fun _ => True) {buffer : List UInt8} {offset : ℤ}
    (hstop : ∀ k, s.lookup path = .ok k → s.TooLarge (s.entry k) (writtenSize (s.entry k) buffer offset))
    (h : write path buffer offset s = some (status, t)) : t = s.load := by
  have hfind := run_find_clean hw hc.1
  unfold write at h
  rw [run_bind, run_get, Option.bind_some, run_bind, hfind, Option.bind_some] at h
  dsimp only at h
  cases hl : s.lookup path with
  | error status =>
    rw [hl, run_ite, if_pos (show (Driver.found s [] (.error status)).status < 0 from lookup_neg hl),
      run_pure] at h
    exact (congrArg Prod.snd (Option.some.inj h)).symm
  | ok k =>
    have hr : s.load.image.Readable (s.entry k) := hc.2 k hl trivial
    have hfree : ∀ f ∈ s.load.freeList, 0 < f := fun f hf => by
      have := (hw.load.free_data hf).1
      omega
    have hres := run_resize_eq hw.load.geometry hfree hr (320 * k) (writtenSize (s.entry k) buffer offset)
    have hroom : s.load.TooLarge (s.entry k) (writtenSize (s.entry k) buffer offset) := hstop k hl
    rw [hl, run_ite, if_neg (show ¬ (Driver.found s [] (.ok k)).status < 0 from lt_irrefl _), run_bind] at h
    change (resize (s.entry k) (320 * k) (writtenSize (s.entry k) buffer offset) s.load).bind _ = _ at h
    rw [hres, if_pos hroom, Option.bind_some, run_ite, if_pos (show (-ENOSPC : ℤ) < 0 by decide), run_pure] at h
    exact (congrArg Prod.snd (Option.some.inj h)).symm

theorem write_ends (hw : WellFormed s) {path : Str} (hc : s.Opens path fun _ => True) {buffer : List UInt8} {offset : ℕ}
    (hn : offset + buffer.length < 2 ^ 63) (h : write path buffer offset s = some (status, t)) :
    (t = s.load ∧ ∀ k, s.lookup path = .ok k → s.TooLarge (s.entry k) (max (s.entry k).len (offset + buffer.length))) ∨
    ∃ k, s.lookup path = .ok k ∧
      ¬ s.TooLarge (s.entry k) (max (s.entry k).len (offset + buffer.length)) ∧
      offset / s.bs < (s.newChain (s.entry k) (max (s.entry k).len (offset + buffer.length))).length ∧
      t = s.load.written (s.entry k) (320 * k) buffer offset := by
  have hfind := run_find_clean hw hc.1
  have hgl := hw.load.geometry
  unfold write at h
  rw [run_bind, run_get, Option.bind_some, run_bind, hfind, Option.bind_some] at h
  dsimp only at h
  cases hl : s.lookup path with
  | error status =>
    rw [hl, run_ite, if_pos (show (Driver.found s [] (.error status)).status < 0 from lookup_neg hl),
      run_pure] at h
    exact .inl ⟨(congrArg Prod.snd (Option.some.inj h)).symm, fun k hk => by cases hk⟩
  | ok k =>
    have hr : s.load.image.Readable (s.entry k) := hc.2 k hl trivial
    have hslot : s.load.IsSlot k := lookup_slot hw.load hc.1 hl
    have hfree : ∀ f ∈ s.load.freeList, s.load.image.IsData f := fun f hf => hw.load.free_data hf
    have hstop : toSize ((offset : ℤ) + buffer.length) = offset + buffer.length := by
      exact_mod_cast toSize_natCast (offset + buffer.length) (by omega)
    have hsize : (if (s.entry k).len < offset + buffer.length then offset + buffer.length
        else (s.entry k).len) = max (s.entry k).len (offset + buffer.length) := by
      split_ifs <;> omega
    have hres := run_resize_eq hgl (fun f hf => by have := (hfree f hf).1; omega) hr (320 * k)
      (max (s.entry k).len (offset + buffer.length))
    rw [hl, run_ite, if_neg (show ¬ (Driver.found s [] (.ok k)).status < 0 from lt_irrefl _), run_bind,
      hstop] at h
    change (resize (s.entry k) (320 * k) (if (s.entry k).len < offset + buffer.length then offset + buffer.length
      else (s.entry k).len) s.load).bind _ = _ at h
    rw [hsize, hres, Option.bind_some] at h
    by_cases hroom : s.load.TooLarge (s.entry k) (max (s.entry k).len (offset + buffer.length))
    · rw [if_pos hroom, run_ite, if_pos (show (-ENOSPC : ℤ) < 0 by decide), run_pure] at h
      refine .inl ⟨(congrArg Prod.snd (Option.some.inj h)).symm, fun k' hk' => ?_⟩
      obtain rfl : k = k' := Except.ok.inj hk'
      exact hroom
    · have howns := resized_owns hgl hfree hr hslot (max (s.entry k).len (offset + buffer.length))
      have hframe :=
        SameFrame.resized s.load (s.entry k) (320 * k) (max (s.entry k).len (offset + buffer.length))
      have hchain := newChain_length hr hroom
      refine .inr ⟨k, rfl, hroom, ?_⟩
      change offset / s.load.bs < (s.load.newChain (s.entry k) (max (s.entry k).len (offset + buffer.length))).length ∧
          _
      rw [if_neg hroom, run_ite, if_neg (lt_irrefl _), Int.toNat_natCast] at h
      simp only [Driver.written]
      have hle : offset + buffer.length ≤
          (s.load.newChain (s.entry k) (max (s.entry k).len (offset + buffer.length))).length * s.load.bs := by
        have := (updiv_le_iff (max (s.entry k).len (offset + buffer.length)) s.load.bs _ hgl.bs_pos).mp
          (show _ ≤ (s.load.newChain (s.entry k) (max (s.entry k).len (offset + buffer.length))).length by omega)
        omega
      generalize s.load.resized (s.entry k) (320 * k) (max (s.entry k).len (offset + buffer.length)) = u at *
      generalize s.load.newChain (s.entry k) (max (s.entry k).len (offset + buffer.length)) = l at *
      have hgu := hframe.geometry hgl
      have hbs : s.superblock.blockSize = u.bs := hframe.bs.symm
      have hbl : s.load.bs = u.bs := hframe.bs.symm
      obtain ⟨b, hb, hc'⟩ := howns.start
      rw [hbl] at hle
      simp only [hbl]
      rw [hbs, hb, run_bind] at h
      by_cases hin : offset / u.bs < l.length
      · have hdata := (howns.data _ (List.getElem_mem hin)).1
        have hcheck : (1 : ℤ) ≤ (l[offset / u.bs] : ℕ) := by omega
        rw [run_writeSkipLoop hgu hc' offset (offset + 1) (by omega) hin, Option.bind_some] at h
        dsimp only at h
        rw [run_bind, run_checkBlock _ hcheck, Option.bind_some, run_bind,
          run_writeData hgu howns buffer offset hin hle, Option.bind_some] at h
        dsimp only at h
        rw [run_ite, if_neg (lt_irrefl _), run_bind, run_writeEntry, Option.bind_some, run_pure] at h
        exact ⟨hin, (congrArg Prod.snd (Option.some.inj h)).symm⟩
      · -- an empty buffer at the end of the last block: the call never returns
        have hge : l.length * u.bs ≤ offset := (Nat.le_div_iff_mul_le hgu.bs_pos).mp (not_lt.mp hin)
        obtain rfl : offset = l.length * u.bs := by omega
        rw [run_writeSkipLoop_end hgu hc' _ (Nat.lt_succ_self _), Option.bind_some] at h
        dsimp only at h
        rw [run_bind, checkBlock, run_ite, if_pos (by decide)] at h
        exact absurd h (by simp)

theorem run_countFreeLoop (n : ℕ) (s : Fs) :
    countFreeLoop n s = some ((), s.addFree ((List.range n).filter fun b : ℕ => s.fat b = 0).length) := by
  induction n generalizing s with
  | zero =>
    rw [List.range_zero, List.filter_nil, List.length_nil, Nat.cast_zero, addFree_zero]
    rfl
  | succ n ih =>
    rw [countFreeLoop, run_bind, run_readFAT, Option.bind_some, run_ite, List.range_succ, List.filter_append,
      List.length_append]
    dsimp only
    by_cases h0 : s.fat n = 0
    · have hlast : ([n].filter fun b : ℕ => s.fat b = 0).length = 1 := by simp [h0]
      have hrest := ih (s.addFree 1)
      rw [if_pos h0, run_bind, run_addBlocksFree, Option.bind_some, hlast]
      refine hrest.trans ?_
      rw [addFree_addFree, Nat.cast_add, Nat.cast_one, add_comm]
      rfl
    · have hlast : ([n].filter fun b : ℕ => s.fat b = 0).length = 0 := by simp [h0]
      rw [if_neg h0, ih, hlast, Nat.add_zero]

theorem run_countFree (hg : Geometry s) :
    countFree s = some (if 0 ≤ s.blocksFree then (s.blocksFree, s)
      else ((s.freeList.length : ℤ), { s with blocksFree := s.freeList.length })) := by
  have hsmall := hg.blockCount_small
  have hinside := hg.inside
  have hcount : (toInt32 (s.superblock.blockCount - 1) + 1).toNat = s.superblock.blockCount := by
    change s.superblock.blockCount < 2 ^ 23 at hsmall
    change _ < s.superblock.blockCount at hinside
    rw [toInt32_of_range _ (by omega) (by omega)]
    omega
  unfold countFree
  rw [run_bind, run_get, Option.bind_some, run_ite]
  by_cases h0 : 0 ≤ s.blocksFree
  · rw [if_pos h0, if_pos h0, run_pure]
  · have hloop := run_countFreeLoop s.superblock.blockCount { s with blocksFree := 0 }
    rw [if_neg h0, if_neg h0, hcount, run_bind, run_set, Option.bind_some, run_bind, hloop, Option.bind_some,
      run_bind, run_get, Option.bind_some, run_pure]
    simp only [Driver.addFree, zero_add]
    rfl

end Ends

end Thorn.FatDriver

import Thorn.ConfinedWrites

set_option autoImplicit false

namespace Thorn.FatDriver
open ByteStore Paths FatTypes FatOperations FatImage LinkedChain

structure FileKept (s t : Fs) (f : ℕ) : Prop where
  len : (t.entry f).len = (s.entry f).len
  chain : t.image.chain f = s.image.chain f
  content : t.content (t.entry f) = s.content (s.entry f)

def Driver.place (s : Fs) (f i : ℕ) : ℕ := (s.image.chain f).getD (i / s.bs) 0 * s.bs + i % s.bs

/-- The bytes that make up the file in slot `f`: its length and its start block in the slot, and its content. -/
def Driver.Holds (s : Fs) (f p : ℕ) : Prop := 320 * f + 280 ≤ p ∧ p < 320 * f + 292 ∨
  ∃ i < (s.entry f).len, p = s.place f i

section Fields

theorem entry_len (s : Fs) (f : ℕ) : (s.entry f).len = leNat (slice s.data (320 * f + 280) 8) := by
  have hlt := field_lt s.data (320 * f) 320 (k := 280) (w := 8) (by decide)
  rw [entry_eq, DirEntry.len, DirEntry.decode, BitVec.toNat_ofNat, Nat.mod_eq_of_lt (show _ < 2 ^ 64 from hlt),
    field, slice_drop_take _ _ _ _ _ (by decide)]

theorem entry_startBlock (s : Fs) (f : ℕ) :
    (s.entry f).startBlock.toNat = leNat (slice s.data (320 * f + 288) 4) := by
  have hlt := field_lt s.data (320 * f) 320 (k := 288) (w := 4) (by decide)
  rw [entry_eq, DirEntry.decode, BitVec.toNat_ofNat, Nat.mod_eq_of_lt (show _ < 2 ^ 32 from hlt), field,
    slice_drop_take _ _ _ _ _ (by decide)]

theorem entry_len_iff {s t : Fs} {f : ℕ} : (t.entry f).len = (s.entry f).len ↔
    ∀ p, 320 * f + 280 ≤ p → p < 320 * f + 288 → t.data p = s.data p := by
  have hslice := slice_eq_iff s.data t.data (320 * f + 280) 8
  rw [entry_len, entry_len, ← hslice]
  exact ⟨leNat_inj _ _ (by rw [slice_length, slice_length]), congrArg leNat⟩

theorem entry_start_iff {s t : Fs} {f : ℕ} : (t.entry f).start = (s.entry f).start ↔
    ∀ p, 320 * f + 288 ≤ p → p < 320 * f + 292 → t.data p = s.data p := by
  have hslice := slice_eq_iff s.data t.data (320 * f + 288) 4
  have hbits : (t.entry f).start = (s.entry f).start ↔
      (t.entry f).startBlock.toNat = (s.entry f).startBlock.toNat := by
    rw [DirEntry.start, DirEntry.start, BitVec.toInt_inj, BitVec.toNat_inj]
  rw [hbits, entry_startBlock, entry_startBlock, ← hslice]
  exact ⟨leNat_inj _ _ (by rw [slice_length, slice_length]), congrArg leNat⟩

end Fields

section Kept
variable {s t : Fs} {f : ℕ}

/-- A file is what it was just when its bytes are, where the cells of its chain are. -/
theorem fileKept_iff (hw : WellFormed s) (hf : s.image.Live f) (hframe : SameFrame s t)
    (hfat : ∀ b ∈ s.image.chain f, t.fat b = s.fat b) :
    FileKept s t f ↔ ∀ p, s.Holds f p → t.data p = s.data p := by
  have hg := hw.geometry
  have ho := hw.image.owns f hf
  have hle : (s.entry f).len ≤ (s.image.chain f).length * s.bs := len_le_chain hg (hw.image.readable hf)
  have htake := gather_take_eq_iff s.data t.data s.bs (s.image.chain f) hg.bs_pos hle
  have hchain : t.image.chain f = s.image.chain f ↔ (t.entry f).start = (s.entry f).start := by
    constructor
    · intro h
      have hs : (s.entry f).start = ((s.image.chain f).headD 0 : ℕ) := by
        rw [show (s.entry f).start = _ from ho.head ho.length_pos, List.headD_eq_head?_getD,
          List.head?_eq_getElem?, List.getElem?_eq_getElem ho.length_pos]
        rfl
      have hcount : t.image.blockCount = s.blockCount - 1 + 1 := by
        have := hg.inside
        rw [show t.image.blockCount = s.blockCount from hframe.blockCount]
        omega
      have hhead : (t.image.chain f).headD 0 = (t.entry f).start.toNat := by
        rw [Image.chain, Image.chainOf, hcount, Image.chainFrom]
        rfl
      have hpos := (ho.data _ ho.start_mem).1
      have hsn : (s.entry f).start.toNat = (s.image.chain f).headD 0 := by
        rw [hs]
        rfl
      change s.image.fatBlocks < (s.entry f).start.toNat at hpos
      rw [h] at hhead
      omega
    · intro h
      exact (ho.congr h hfat fun b hb => hframe.isData.mpr (ho.data b hb)).chainOf_eq
  constructor
  · rintro ⟨hlen, hch, hcontent⟩ p (⟨h₁, h₂⟩ | ⟨i, hi, rfl⟩)
    · rcases Nat.lt_or_ge p (320 * f + 288) with hp | hp
      · exact entry_len_iff.mp hlen p h₁ hp
      · exact entry_start_iff.mp (hchain.mp hch) p hp h₂
    · have hboth : (gather t.data s.bs (s.image.chain f)).take (s.entry f).len =
          (gather s.data s.bs (s.image.chain f)).take (s.entry f).len := by
        have hc : (gather t.data t.bs (t.image.chain f)).take (t.entry f).len =
            (gather s.data s.bs (s.image.chain f)).take (s.entry f).len := hcontent
        rwa [hch, hlen, hframe.bs] at hc
      exact htake.mp hboth i hi
  · intro h
    have hlen := entry_len_iff.mpr fun p h₁ h₂ => h p (.inl ⟨h₁, by omega⟩)
    have hch := hchain.mpr (entry_start_iff.mpr fun p h₁ h₂ => h p (.inl ⟨by omega, h₂⟩))
    refine ⟨hlen, hch, ?_⟩
    have hboth := htake.mpr fun i hi => h _ (.inr ⟨i, hi, rfl⟩)
    change (gather t.data t.bs (t.image.chain f)).take (t.entry f).len =
        (gather s.data s.bs (s.image.chain f)).take (s.entry f).len
    rw [hch, hlen, hframe.bs]
    exact hboth

end Kept

structure Resides (s : Fs) (f : ℕ) (l : List ℕ) : Prop where
  geometry : Geometry s
  slot : s.IsSlot f
  data : ∀ b ∈ l, s.image.IsData b

structure Driver.Apart (s : Fs) (f : ℕ) (l : List ℕ) (k : ℕ) : Prop where
  slot : s.IsSlot k
  ne : k ≠ f
  root : k = s.image.rootSlot → f ≠ k + 1
  block : k / s.image.epb ∉ l

structure Spared (s t : Fs) (f : ℕ) (l : List ℕ) : Prop where
  frame : SameFrame s t
  entry : t.entry f = s.entry f
  fat : ∀ b ∈ l, t.fat b = s.fat b
  block : ∀ b ∈ l, t.block b = s.block b

theorem Resides.of {s t : Fs} {f : ℕ} {l : List ℕ} (h : Resides s f l) (hf : SameFrame s t) :
    Resides t f l where
  geometry := hf.geometry h.geometry
  slot := hf.isSlot.mpr h.slot
  data := fun b hb => hf.isData.mpr (h.data b hb)

theorem SameFrame.apart {s t : Fs} {f k : ℕ} {l : List ℕ} (h : SameFrame s t) (hk : s.Apart f l k) :
    t.Apart f l k where
  slot := h.isSlot.mpr hk.slot
  ne := hk.ne
  root := by
    rw [h.rootSlot]
    exact hk.root
  block := by
    rw [h.epb]
    exact hk.block

namespace Spared
variable {s t u : Fs} {f k : ℕ} {l : List ℕ}

theorem refl (s : Fs) (f : ℕ) (l : List ℕ) : Spared s s f l := ⟨.refl s, rfl, fun _ _ => rfl, fun _ _ => rfl⟩

theorem trans (h : Spared s t f l) (h' : Spared t u f l) : Spared s u f l where
  frame := h.frame.trans h'.frame
  entry := h'.entry.trans h.entry
  fat := fun b hb => (h'.fat b hb).trans (h.fat b hb)
  block := fun b hb => (h'.block b hb).trans (h.block b hb)

theorem table (h : Resides s f l) (ht : OnlyTable s t) (hfat : ∀ b ∈ l, t.fat b = s.fat b) :
    Spared s t f l where
  frame := ht.frame
  entry := ht.entry h.geometry h.slot
  fat := hfat
  block := by
    intro b hb
    have hblock := ht.block h.geometry (h.data b hb)
    rw [Driver.block, Driver.block, ht.frame.superblock]
    exact hblock

theorem putFAT (h : Resides s f l) (v : ℤ) {b : ℕ} (hb : b < s.blockCount) (hbl : b ∉ l) :
    Spared s (s.putFAT v b) f l := by
  apply table h (.putFAT h.geometry v hb)
  intro c hc
  rw [putFAT_fat h.geometry hb (h.data c hc).2, if_neg]
  rintro rfl
  exact hbl hc

theorem addFree (s : Fs) (n : ℤ) : Spared s (s.addFree n) f l :=
  ⟨.addFree s n, rfl, fun _ _ => rfl, fun _ _ => rfl⟩

theorem putEntry (h : Resides s f l) (hk : s.Apart f l k) (e : DirEntry) : Spared s (s.putEntry k e) f l where
  frame := .putEntry s k e
  entry := by
    rw [putEntry_entry h.geometry hk.slot, if_neg hk.ne.symm]
  fat := fun b hb => putEntry_fat h.geometry hk.slot e (h.data b hb).2
  block := by
    intro b hb
    apply putEntry_block h.geometry hk.slot
    rintro rfl
    exact hk.block hb

theorem storeEntry (h : Resides s f l) (hk : s.Apart f l k) (e : DirEntry) :
    Spared s (s.storeEntry e (320 * k)) f l where
  frame := .storeEntry s e _
  entry := by
    rw [storeEntry_entry h.geometry hk.slot, if_neg hk.ne.symm, if_neg]
    rintro ⟨hr, hf⟩
    exact hk.root hr hf
  fat := fun b hb => storeEntry_fat h.geometry hk.slot e (h.data b hb).2
  block := by
    intro b hb
    apply storeEntry_block h.geometry hk.slot
    rintro rfl
    exact hk.block hb

theorem moved {p : ℕ} (h : Resides s f l) (hp : s.Apart f l p) (hk : s.Apart f l k) (e : DirEntry) :
    Spared s (s.moved e (320 * p) k) f l where
  frame := moved_frame s e _ k
  entry := by
    rw [moved_entry h.geometry hp.slot hk.slot, if_neg hk.ne.symm, if_neg hp.ne.symm]
  fat := fun b hb => moved_fat h.geometry hp.slot hk.slot (h.data b hb).2
  block := by
    intro b hb
    apply moved_block h.geometry hp.slot hk.slot
    · rintro rfl
      exact hp.block hb
    · rintro rfl
      exact hk.block hb

theorem entryRule (f : ℕ) (l : List ℕ) : EntryRule (fun s t => Spared s t f l) (fun s => Resides s f l)
    (fun s b _ => b < s.blockCount ∧ b ∉ l) fun s k => s.Apart f l k where
  refl s := refl s f l
  trans := trans
  keeps h hs := hs.of h.frame
  cell h hb := ⟨h.frame.blockCount ▸ hb.1, hb.2⟩
  addFree := addFree
  putFAT hs hb := putFAT hs _ hb.1 hb.2
  slot h hk := h.frame.apart hk
  storeEntry e hs hk := storeEntry hs hk e
  moved e hs hp hk := moved hs hp hk e

end Spared

section Slots
variable {s : Fs} {f : ℕ}

theorem WellFormed.resides (hw : WellFormed s) (hf : s.image.Live f) : Resides s f (s.image.chain f) where
  geometry := hw.geometry
  slot := hw.image.live_data hf
  data := (hw.image.owns f hf).data

theorem apart_of_block (hw : WellFormed s) (hf : s.image.Live f) {k : ℕ} (hk : s.IsSlot k) (hne : k ≠ f)
    (hblock : k / s.image.epb ∉ s.image.chain f) : s.Apart f (s.image.chain f) k where
  slot := hk
  ne := hne
  root := by
    rintro rfl rfl
    have hbehind := live_behind hw hf (Nat.succ_ne_self _)
    omega
  block := hblock

/-- An entry that has nothing in common with the file: another slot, outside the file's blocks, and other blocks. -/
structure Driver.Foreign (s : Fs) (f k : ℕ) : Prop where
  ne : k ≠ f
  outside : k / s.image.epb ∉ s.image.chain f
  blocks : ∀ b ∈ s.image.chain f, b ∉ s.image.chain k

theorem foreign_of_live (hw : WellFormed s) (hf : s.image.Live f) (hfile : (s.entry f).isDirectory = false) {k : ℕ}
    (hk : s.image.Live k) (hne : k ≠ f) : s.Foreign f k :=
  ⟨hne, hw.image.live_apart hk hf hfile, fun _ hb hbk => hw.image.disjoint f k hf hk hne.symm hb hbk⟩

theorem apart_foreign (hw : WellFormed s) (hf : s.image.Live f) {k : ℕ} (hk : s.IsSlot k) (ho : s.Foreign f k) :
    s.Apart f (s.image.chain f) k := apart_of_block hw hf hk ho.ne ho.outside

theorem directory_ne (hfile : (s.entry f).isDirectory = false) {p : ℕ} (hd : (s.entry p).isDirectory) :
    p ≠ f := by
  rintro rfl
  rw [hd] at hfile
  cases hfile

theorem apart_listed (hw : WellFormed s) (hf : s.image.Live f)
    (hfile : (s.entry f).isDirectory = false) {p k : ℕ}
    (hp : s.image.Live p) (hd : (s.entry p).isDirectory) (hk : k / s.image.epb ∈ s.image.chain p)
    (hne : k ≠ f) : s.Apart f (s.image.chain f) k :=
  apart_of_block hw hf ((hw.image.owns p hp).data _ hk) hne
    (hw.image.disjoint p f hp hf (directory_ne hfile hd) hk)

theorem apart_slot (hw : WellFormed s) (hf : s.image.Live f) {p k : ℕ} (hr : s.image.Readable (s.entry p))
    (ho : s.Foreign f p) (hk : k / s.image.epb ∈ s.image.chain p) (hne : k ≠ f) : s.Apart f (s.image.chain f) k :=
  apart_of_block hw hf (hr.owns.data _ hk) hne fun hb => ho.blocks _ hb hk

theorem apart_end (hw : WellFormed s) (hf : s.image.Live f) (hfile : (s.entry f).isDirectory = false) {p : ℕ}
    (hp : s.image.Live p) (hd : (s.entry p).isDirectory) (hroom : ¬ s.FullDir p) :
    s.Apart f (s.image.chain f) (s.endSlot p) := by
  have hlt := (endSlot_position hw.geometry (listed_of_live hw hp hd) hroom).2
  apply apart_listed hw hf hfile hp hd (Image.slotAt_mem hw.geometry.epb_pos _ _ hlt)
  rintro rfl
  obtain ⟨q, hq, -, hmem⟩ := hw.image.live_mem hf
  have hroom' : ¬ s.image.bs ∣ (s.image.entry p).len := by
    rw [hw.geometry.image_bs]
    exact hroom
  exact hw.image.end_not_mem hp hd hroom' hq hmem

theorem free_not_mem (hw : WellFormed s) (hf : s.image.Live f) {b : ℕ} (hb : b ∈ s.freeList) :
    b ∉ s.image.chain f :=
  fun hmem => (hw.image.owns f hf).fat_ne_zero b hmem (mem_freeList.mp hb).2

theorem apart_block (hw : WellFormed s) (hf : s.image.Live f) {b : ℕ} (hb : b ∈ s.freeList) :
    s.Apart f (s.image.chain f) (b * s.image.epb) := by
  have hdiv : b * s.image.epb / s.image.epb = b := Nat.mul_div_cancel _ hw.geometry.epb_pos
  apply apart_of_block hw hf
  · rw [Driver.IsSlot, hdiv]
    exact hw.free_data hb
  · rintro rfl
    obtain ⟨q, hq, -, hmem⟩ := hw.image.live_mem hf
    have hblock := hw.image.slot_mem hq hmem
    change _ / s.image.epb ∈ _ at hblock
    rw [hdiv] at hblock
    exact free_not_mem hw hq hb hblock
  · rw [hdiv]
    exact free_not_mem hw hf hb

theorem Driver.Touches.apart {path : Str} {k : ℕ} (h : s.Touches path k) (hw : WellFormed s) (hf : s.image.Live f)
    (hhouses : s.Houses path) (ho : ∀ p, Home s path p → s.Foreign f p ∧ (¬ s.FullDir p → s.endSlot p ≠ f)) :
    s.Apart f (s.image.chain f) k := by
  have hE := hw.geometry.epb_pos
  cases h with
  | directory ht => exact apart_foreign hw hf (ht.slot hw hhouses) (ho _ ht).1
  | @vacant p _ ht hk hno =>
    have hr := (ht.listed hhouses).readable
    obtain ⟨i, hi, rfl⟩ := Image.mem_slotsIn.mp hk
    have hcount : s.image.count p ≤ (s.image.chain p).length * s.image.epb := Image.count_le hE hr.size
    have hlt : i / s.image.epb < (s.image.chain p).length := (Nat.div_lt_iff_lt_mul hE).mpr (by omega)
    apply apart_slot hw hf hr (ho _ ht).1 (Image.slotAt_mem hE _ i hlt)
    intro he
    rw [he] at hno
    exact hno hf
  | behind ht hroom =>
    have hlisted := ht.listed hhouses
    have hlt := (endSlot_position hw.geometry hlisted hroom).2
    exact apart_slot hw hf hlisted.readable (ho _ ht).1 (Image.slotAt_mem hE _ _ hlt) ((ho _ ht).2 hroom)
  | block hb => exact apart_block hw hf hb

theorem Driver.Touches.apart_of_stays {path : Str} {k : ℕ} (h : s.Touches path k) (hw : WellFormed s)
    (hf : s.image.Live f) (hfile : (s.entry f).isDirectory = false)
    (hstay : s.image.StaysLive s.image.rootSlot (pathNames path).dropLast) : s.Apart f (s.image.chain f) k :=
  h.apart hw hf (houses_of_stays hw hstay) fun p ht =>
    have hp : s.image.Live p := hstay.walkDirs .root ht.parent
    ⟨foreign_of_live hw hf hfile hp (directory_ne hfile ht.directory),
      fun hroom => (apart_end hw hf hfile hp ht.directory hroom).ne⟩

end Slots

namespace Spared
variable {s t : Fs} {f : ℕ} {path : Str}

theorem created (hw : WellFormed s) (hf : s.image.Live f) (hfile : (s.entry f).isDirectory = false)
    (hstay : s.image.StaysLive s.image.rootSlot (pathNames path).dropLast) {length : ℕ} {type : FileType}
    {r : NewFileResult} (hc : Created s path length type r t) : Spared s t f (s.image.chain f) :=
  (entryRule f _).created hw hstay (hw.resides hf)
    (fun _ hb _ => ⟨(mem_freeList.mp hb).1, free_not_mem hw hf hb⟩)
    (fun _ hk => hk.apart_of_stays hw hf hfile hstay) hc

theorem freed (hw : WellFormed s) (hf : s.image.Live f) {k : ℕ} (hk : s.IsSlot k) (hr : s.image.Readable (s.entry k))
    (ho : s.Foreign f k) (e : DirEntry) :
    Spared s (((s.clearCells (s.image.chain k)).addFree (s.image.chain k).length).storeEntry e (320 * k)) f
      (s.image.chain f) :=
  (entryRule f _).freed (hw.resides hf) (apart_foreign hw hf hk ho)
    (fun b hb => ⟨(hr.owns.data b hb).2, fun hbf => ho.blocks b hbf hb⟩) e

end Spared

section Holds
variable {s t : Fs} {f : ℕ}

theorem holds_block (hw : WellFormed s) (hf : s.image.Live f) {p : ℕ} (hp : s.Holds f p) :
    (320 * f ≤ p ∧ p < 320 * f + 320 ∧ p / s.bs = f / s.image.epb) ∨ p / s.bs ∈ s.image.chain f := by
  have hg := hw.geometry
  have hbs := hg.bs_pos
  rcases hp with ⟨h₁, h₂⟩ | ⟨i, hi, rfl⟩
  · have hrange := slot_range hg f
    refine .inl ⟨by omega, by omega, ?_⟩
    rw [Nat.div_eq_iff hbs]
    omega
  · right
    have hlt : i / s.bs < (s.image.chain f).length := by
      rw [Nat.div_lt_iff_lt_mul hbs]
      exact hi.trans_le (len_le_chain hg (hw.image.readable hf))
    have hmod := Nat.mod_lt i hbs
    rw [Driver.place, Nat.mul_comm, Nat.mul_add_div hbs, Nat.div_eq_of_lt hmod, Nat.add_zero,
      List.getD_eq_getElem _ _ hlt]
    exact List.getElem_mem hlt

theorem holds_used (hw : WellFormed s) (hf : s.image.Live f) {p : ℕ} (hp : s.Holds f p) :
    s.image.IsData (p / s.bs) ∧ s.fat (p / s.bs : ℕ) ≠ 0 := by
  rcases holds_block hw hf hp with ⟨-, -, h⟩ | h
  · obtain ⟨q, hq, -, hmem⟩ := hw.image.live_mem hf
    have hblock := hw.image.slot_mem hq hmem
    rw [h]
    exact ⟨(hw.image.owns q hq).data _ hblock, (hw.image.owns q hq).fat_ne_zero _ hblock⟩
  · exact ⟨(hw.image.owns f hf).data _ h, (hw.image.owns f hf).fat_ne_zero _ h⟩

theorem Spared.data (hw : WellFormed s) (hf : s.image.Live f) (hframe : SameFrame s t) {u : Fs}
    (h : Spared t u f (s.image.chain f)) {p : ℕ} (hp : s.Holds f p) : u.data p = t.data p := by
  have hg := hw.geometry
  rcases hp with ⟨h₁, h₂⟩ | ⟨i, hi, rfl⟩
  · rcases Nat.lt_or_ge p (320 * f + 288) with hlt | hge
    · exact entry_len_iff.mp (congrArg DirEntry.len h.entry) p h₁ hlt
    · exact entry_start_iff.mp (congrArg DirEntry.start h.entry) p hge h₂
  · have hlt : i / s.bs < (s.image.chain f).length := by
      rw [Nat.div_lt_iff_lt_mul hg.bs_pos]
      exact hi.trans_le (len_le_chain hg (hw.image.readable hf))
    have hblock := h.block _ (List.getElem_mem hlt)
    have hbs : u.superblock.blockSize = s.bs := (hframe.trans h.frame).bs
    have hbs' : t.superblock.blockSize = s.bs := hframe.bs
    rw [Driver.block, Driver.block, hbs, hbs', blockAt, blockAt, slice_eq_iff] at hblock
    rw [Driver.place, List.getD_eq_getElem _ _ hlt]
    exact hblock _ (Nat.le_add_right _ _) (Nat.add_lt_add_left (Nat.mod_lt i hg.bs_pos) _)

theorem Spared.kept (hw : WellFormed s) (hf : s.image.Live f) (h : Spared s t f (s.image.chain f)) :
    FileKept s t f :=
  (fileKept_iff hw hf h.frame h.fat).mpr fun _ hp => h.data hw hf (.refl s) hp

end Holds

section Resized
variable {s : Fs} {f k : ℕ}

theorem Spared.grown (hw : WellFormed s) (hf : s.image.Live f) (hk : s.IsSlot k)
    (hr : s.image.Readable (s.entry k)) (ho : s.Foreign f k) {size : ℕ} (hle : (s.entry k).len ≤ size) :
    Spared s (s.resized (s.entry k) (320 * k) size) f (s.image.chain f) :=
  (entryRule f _).lengthened hw.geometry (hw.resides hf) hr (apart_foreign hw hf hk ho) hle
    (fun b hb _ => ⟨(hr.owns.data b hb).2, fun hbf => ho.blocks b hbf hb⟩)
    fun _ hb _ => ⟨(mem_freeList.mp hb).1, free_not_mem hw hf hb⟩

end Resized

section Written
variable {s : Fs} {f k : ℕ}

end Written

/-- The paths of a call lead past the file: to entries that have nothing in
common with it, in directories that do not take its slot for the one behind their last entry. -/
structure Call.Elsewhere (c : Call) (s : Fs) (f : ℕ) : Prop where
  entries : ∀ path ∈ c.paths, ∀ k, s.lookup path = .ok k → s.Foreign f k
  home : ∀ path ∈ c.paths, ∀ p, Home s path p → s.Foreign f p ∧ (¬ s.FullDir p → s.endSlot p ≠ f)

theorem Call.elsewhere {s : Fs} {f : ℕ} (hw : WellFormed s) (hf : s.image.Live f)
    (hfile : (s.entry f).isDirectory = false)
    {c : Call} (hstay : ∀ path ∈ c.paths, s.image.StaysLive s.image.rootSlot (pathNames path))
    (hother : ∀ path ∈ c.paths, s.lookup path ≠ .ok f) : c.Elsewhere s f where
  entries path hp k hk := foreign_of_live hw hf hfile ((hstay path hp).resolve .root hk)
    fun he => hother path hp (he ▸ hk)
  home path hp p ht := by
    have hl : s.image.Live p := (hstay path hp).dropLast.walkDirs .root ht.parent
    exact ⟨foreign_of_live hw hf hfile hl (directory_ne hfile ht.directory),
      fun hroom => (apart_end hw hf hfile hl ht.directory hroom).ne⟩

section Sample
open FatSample

theorem disk_entry_g : disk.entry 7 = item nameG .File 5 1 := (disk_slot ⟨by decide, by decide⟩).trans rfl

theorem disk_chain_g : disk.image.chain 7 = [5] := by
  rw [disk_agree.chain picture_catalogue.wellFormed ((picture_catalogue.live_iff 7).mpr (by decide)),
    picture_catalogue.chain_eq (by decide)]
  rfl

theorem disk_file_g : (disk.entry 7).isDirectory = false := by
  rw [disk_entry_g]
  decide

end Sample

end Thorn.FatDriver

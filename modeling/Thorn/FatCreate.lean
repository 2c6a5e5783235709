import Thorn.FatNewFile

set_option autoImplicit false

namespace Thorn.FatImage.Image
open Paths FatTypes LinkedChain
variable {I : Image}

/-- Every component of the walk that is found is a live entry. -/
def StaysLive (I : Image) : ℕ → List Str → Prop
  | _, [] => True
  | p, name :: rest => I.Walkable p → ∀ k, I.findSlot p name = some k → I.Live k ∧ StaysLive I k rest

theorem AvoidsCopies.staysLive {p : ℕ} {names : List Str} (hp : I.Live p) (ha : I.AvoidsCopies p names) :
    I.StaysLive p names := by
  induction names generalizing p with
  | nil => exact trivial
  | cons name names ih =>
    intro hw k hk
    obtain ⟨hm, hrest⟩ := ha hw k hk
    have hl := Live.child hp (findSlot_child hw hk hm)
    exact ⟨hl, ih hl hrest⟩

namespace StaysLive

theorem dropLast {p : ℕ} {names : List Str} (h : I.StaysLive p names) : I.StaysLive p names.dropLast := by
  induction names generalizing p with
  | nil => exact trivial
  | cons name names ih =>
    cases names with
    | nil => exact trivial
    | cons name' names =>
      intro hw k hk
      exact ⟨(h hw k hk).1, ih (h hw k hk).2⟩

theorem walkReadable {p : ℕ} {names : List Str} (hI : I.WellFormed) (hp : I.Live p) (h : I.StaysLive p names) :
    I.WalkReadable p names := by
  induction names generalizing p with
  | nil => exact trivial
  | cons name names ih =>
    intro hw
    refine ⟨hI.readable hp, fun k hk => ?_⟩
    obtain ⟨hl, hrest⟩ := h hw k hk
    exact ih hl hrest

theorem resolve {p k : ℕ} {names : List Str} (hp : I.Live p) (h : I.StaysLive p names)
    (hr : I.resolve p names = .ok k) : I.Live k := by
  induction names generalizing p with
  | nil =>
    cases hr
    exact hp
  | cons name names ih =>
    by_cases hw : I.Walkable p
    · cases hk' : I.findSlot p name with
      | none => simp [Image.resolve, hw, hk'] at hr
      | some k' =>
        obtain ⟨hl, hrest⟩ := h hw k' hk'
        simp only [Image.resolve, hw, hk', ite_true] at hr
        split_ifs at hr with hn hf
        · cases hr
          exact hl
        · exact ih hl hrest hr
    · simp [Image.resolve, hw] at hr

theorem walkDirs {p k : ℕ} {names : List Str} (hp : I.Live p) (h : I.StaysLive p names)
    (hr : I.walkDirs p names = .ok k) : I.Live k := by
  induction names generalizing p with
  | nil =>
    cases hr
    exact hp
  | cons name names ih =>
    by_cases hw : I.Walkable p
    · cases hk' : I.findSlot p name with
      | none => simp [Image.walkDirs, hw, hk'] at hr
      | some k' =>
        obtain ⟨hl, hrest⟩ := h hw k' hk'
        simp only [Image.walkDirs, hw, hk', ite_true] at hr
        split_ifs at hr with hf
        exact ih hl hrest hr
    · simp [Image.walkDirs, hw] at hr

end StaysLive

theorem WalkReadable.at {p q : ℕ} {pre rest : List Str} {name : Str} (h : I.WalkReadable q (pre ++ name :: rest))
    (hp : I.walkDirs q pre = .ok p) (hw : I.Walkable p) : I.Readable (I.entry p) := by
  induction pre generalizing q with
  | nil =>
    cases hp
    exact (h hw).1
  | cons first pre ih =>
    rw [Image.walkDirs] at hp
    split_ifs at hp with hq
    cases hk : I.findSlot q first with
    | none => simp [hk] at hp
    | some k =>
      simp only [hk] at hp
      split_ifs at hp
      exact ih ((h hq).2 k hk) hp

end Thorn.FatImage.Image

namespace Thorn.FatDriver
open ByteStore Paths FatTypes FatOperations FatImage LinkedChain

/-- The directories that the path leads through can be read as they stand, copies or not. -/
def Driver.Clean (s : Fs) (path : Str) : Prop := s.image.WalkReadable s.image.rootSlot (pathNames path)

/-- Nothing is found under the path: no entry has its names, or the walk gets stuck. -/
def Driver.Misses (s : Fs) (path : Str) : Prop := (∃ status, s.lookup path = .error status) ∨ s.Stuck path

section Walks
variable {s : Fs} {path : Str} {k : ℕ}

theorem Driver.Cut.not_readable (hg : Geometry s) (h : s.Cut k) : ¬ s.image.Readable (s.entry k) := by
  intro hread
  have hblocks : updiv (s.entry k).len s.bs ≤ (s.image.chainOf (s.entry k)).length := by
    rw [hread.size, Image.blocksFor, hg.image_bs]
    exact le_max_right _ _
  exact absurd ((updiv_le_iff _ _ _ hg.bs_pos).mp hblocks) (not_le.mpr h.short)

theorem Driver.Clean.not_stuck (hg : Geometry s) (hc : s.Clean path) : ¬ s.Stuck path := by
  rintro ⟨pre, name, rest, p, hnames, -, hp, hcut⟩
  rw [Driver.Clean, hnames] at hc
  have hlen : (s.entry p).len ≠ 0 := Nat.ne_zero_of_lt hcut.short
  exact hcut.not_readable hg (hc.at hp (Image.walkable_iff.mpr ⟨hlen, hcut.directory⟩))

theorem Driver.Clean.misses_iff (hg : Geometry s) (hc : s.Clean path) :
    s.Misses path ↔ ∃ status, s.lookup path = .error status := or_iff_left (hc.not_stuck hg)

theorem stays_of_noDots (hw : WellFormed s) (hp : NoDots path) :
    s.image.StaysLive s.image.rootSlot (pathNames path) := (hw.image.avoidsCopies .root hp.1 hp.2).staysLive .root

theorem clean_of_noDots (hw : WellFormed s) (hp : NoDots path) : s.Clean path :=
  hw.image.walkReadable .root (hw.image.avoidsCopies .root hp.1 hp.2)

theorem lookup_live (hw : WellFormed s) (hp : NoDots path) (hk : s.lookup path = .ok k) : s.image.Live k :=
  Image.resolve_live .root (hw.image.avoidsCopies .root hp.1 hp.2) hk

theorem lookup_slot (hw : WellFormed s) (hc : s.Clean path) (hk : s.lookup path = .ok k) : s.IsSlot k :=
  Image.resolve_data hw.geometry.epb_pos (hw.image.live_data .root) hc hk

theorem parent_slot (hw : WellFormed s) (hc : s.image.WalkReadable s.image.rootSlot (pathNames path).dropLast)
    (hk : s.lookupParent path = .ok k) : s.IsSlot k :=
  Image.walkDirs_data hw.geometry.epb_pos (hw.image.live_data .root) hc hk

end Walks

theorem WellFormed.load {s : Fs} (hw : WellFormed s) : WellFormed s.load :=
  ⟨(SameFrame.load s).geometry hw.geometry, hw.image, fun _ => rfl⟩

def newEntry (length : ℕ) (type : FileType) (times : Option Times) : DirEntry :=
  { DirEntry.empty with times := times.getD .zero, length := BitVec.ofNat 64 length, type := type.code }

def Driver.allocated (s : Fs) (f : ℕ) : Fs := (s.putFAT FINAL f).addFree (-1)

section Listed
variable {s t : Fs} {p : ℕ}

theorem start_ne_startBlock (hw : WellFormed s) {k : ℕ} (hk : s.image.Live k) (hr : k ≠ s.image.rootSlot) :
    (s.entry k).start ≠ s.image.startBlock := by
  intro he
  have hstart : (s.entry k).start.toNat = s.image.startBlock := by rw [he, Int.toNat_natCast]
  have hmem : (s.entry k).start.toNat ∈ s.image.chain k := (hw.image.owns k hk).start_mem
  have hroot : s.image.startBlock ∈ s.image.chain s.image.rootSlot := by
    have hl := (hw.image.owns _ .root).length_pos
    exact hw.image.root_chain hl ▸ List.getElem_mem hl
  exact hw.image.disjoint k _ hk .root hr (hstart ▸ hmem) hroot

theorem skips_live (hw : WellFormed s) (hp : s.image.Live p) : s.skips p = s.image.copies p := by
  rw [Driver.skips, Image.copies]
  by_cases hr : p = s.image.rootSlot
  · have hstart : (s.entry s.image.rootSlot).start = s.image.startBlock := hw.image.root_start
    rw [if_pos hr, if_pos (hr ▸ hstart)]
  · rw [if_neg hr, if_neg (start_ne_startBlock hw hp hr)]

theorem listed_of_live (hw : WellFormed s) (hp : s.image.Live p) (hd : (s.entry p).isDirectory) :
    Listed s p := by
  have hr : s.image.Readable (s.entry p) := hw.image.readable hp
  obtain ⟨hpos, hdvd⟩ := hw.image.directory p hp hd
  change 0 < (s.entry p).len at hpos
  change sizeofDirEntry ∣ (s.entry p).len at hdvd
  have hlen : 320 ≤ (s.entry p).len := Nat.le_of_dvd hpos hdvd
  refine ⟨hr, hd, hpos, hdvd, ?_⟩
  rw [firstIndex_content hw.geometry _ hlen hr.owns.length_pos]
  change (let name := (s.entry (s.image.slotAt (s.image.chain p) 0)).name.toStr
    if name = dotName then some 2 else if name = dotDotName then some 1 else none) = _
  dsimp only
  rw [skips_live hw hp, Image.copies]
  by_cases hroot : p = s.image.rootSlot
  · have hslot := hw.image.root_slotAt (i := 0) hw.image.epb_pos
    have hdot := hw.image.dot
    rw [hroot, hslot, Nat.add_zero, if_pos rfl]
    exact if_pos hdot
  · have hdd := hw.image.dotdot p hp hroot hd
    change (s.entry (s.image.slotAt (s.image.chain p) 0)).name.toStr = dotDotName at hdd
    rw [hdd, if_neg (by decide), if_pos rfl, if_neg hroot]

theorem Listed.congr (hg : Geometry s) (h : Listed s p) (hslot : s.IsSlot p) (ht : OnlyTable s t)
    (hfat : ∀ b ∈ s.image.chain p, t.fat b = s.fat b) : Listed t p := by
  have hentry : t.entry p = s.entry p := ht.entry hg hslot
  have howns : t.image.Owns (s.entry p) (s.image.chainOf (s.entry p)) :=
    h.readable.owns.congr rfl hfat fun b hb => ht.frame.isData.mpr (h.readable.owns.data b hb)
  have hchain : t.image.chainOf (s.entry p) = s.image.chainOf (s.entry p) := howns.chainOf_eq
  have hcontent : t.content (s.entry p) = s.content (s.entry p) := by
    rw [Driver.content, Driver.content, hchain, ht.frame.bs, ht.gather hg h.readable.owns.data]
  have hstart : t.image.startBlock = s.image.startBlock := by
    have h₁ : t.image.fatBlocks = s.image.fatBlocks := ht.frame.fatBlocks
    rw [Image.startBlock, Image.startBlock, h₁]
  constructor
  · rw [hentry]
    refine ⟨hchain ▸ howns, ?_⟩
    rw [hchain, h.readable.size, Image.blocksFor, Image.blocksFor, (ht.frame.geometry hg).image_bs, hg.image_bs,
      ht.frame.bs]
  · rw [hentry]
    exact h.directory
  · rw [hentry]
    exact h.pos
  · rw [hentry]
    exact h.whole
  · rw [hentry, hcontent, h.first, Driver.skips, Driver.skips, hentry, hstart]

end Listed

def lastName (path : Str) : Str := (pathNames path).getLastD []

def ownEntry (path : Str) (length : ℕ) (type : FileType) (f : ℕ) : DirEntry :=
  ((newEntry length type none).setStart f).setName (lastName path)

/-- A directory that is to hold the new entry, with the blocks free then. -/
structure Target (s : Fs) (path : Str) (p f : ℕ) (fs : List ℕ) : Prop where
  parent : s.lookupParent path = .ok p
  short : (lastName path).length ≤ THORNFAT_PATH_MAX
  directory : (s.entry p).isDirectory
  free : s.freeList = f :: fs

/-- The ways `newFile` ends when the new file gets a block: with nothing done
(`lost`, `long`, `full`), with the block taken though no directory was found
(`astray`), with the block given back (`crowded`, `stuck`), or with an entry in
a freed slot, behind the last one, or in a further block of the directory. -/
inductive Created (s : Fs) (path : Str) (length : ℕ) (type : FileType) : NewFileResult → Fs → Prop
  | lost {status : ℤ} (h : s.lookupParent path = .error status) (hne : status ≠ -ENOENT) :
      Created s path length type (.fail status) s
  | long {p : ℕ} (h : s.lookupParent path = .ok p) (hlong : THORNFAT_PATH_MAX < (lastName path).length) :
      Created s path length type (.fail (-ENAMETOOLONG)) s
  | full (hfree : s.freeList = []) : Created s path length type (.fail (-ENOSPC)) s
  | astray {f : ℕ} {fs : List ℕ} (hfree : s.freeList = f :: fs)
      (h : s.lookupParent path = .error (-ENOENT) ∨ ∃ p, s.lookupParent path = .ok p ∧
        (lastName path).length ≤ THORNFAT_PATH_MAX ∧ (s.entry p).isDirectory = false) :
      Created s path length type (.fail (-ENOTDIR)) (s.allocated f)
  | recycled {p f k : ℕ} {fs : List ℕ} (ht : Target s path p f fs) (hk : (s.allocated f).freedSlot p = some k) :
      Created s path length type ((s.allocated f).newResult p k (ownEntry path length type f) false)
        ((s.allocated f).entered p k (ownEntry path length type f) false false)
  | crowded {p f : ℕ} (ht : Target s path p f []) (hk : (s.allocated f).freedSlot p = none)
      (hroom : ¬ s.FullDir p) (hlen : (s.entry p).len ≤ s.bs - sizeofDirEntry) :
      Created s path length type (.fail (-ENOSPC)) ((s.allocated f).putFAT 0 f)
  | appended {p f : ℕ} {fs : List ℕ} (ht : Target s path p f fs) (hk : (s.allocated f).freedSlot p = none)
      (hroom : ¬ s.FullDir p) (hlen : (s.entry p).len ≤ s.bs - sizeofDirEntry → fs ≠ []) :
      Created s path length type
        ((s.allocated f).newResult p (s.endSlot p) (ownEntry path length type f) true)
        ((s.allocated f).entered p (s.endSlot p) (ownEntry path length type f) true false)
  | stuck {p f : ℕ} {fs : List ℕ} (ht : Target s path p f fs) (hk : (s.allocated f).freedSlot p = none)
      (hfull : s.FullDir p) (hfew : fs.length < 2 + updiv length s.bs) :
      Created s path length type (.fail (-ENOSPC)) ((s.allocated f).putFAT 0 f)
  | expanded {p f g : ℕ} {fs : List ℕ} (ht : Target s path p f (g :: fs))
      (hk : (s.allocated f).freedSlot p = none) (hfull : s.FullDir p) (henough : 1 + updiv length s.bs ≤ fs.length) :
      Created s path length type
        ((((s.allocated f).putFAT ((s.image.chain p).getLastD 0 : ℕ) f).addFree (-1)).newResult p
          (f * s.image.epb) ((ownEntry path length type f).setStart g) true)
        ((s.allocated f).expandedBoth p ((s.image.chain p).getLastD 0) f g (ownEntry path length type f))

section Outcome
variable {s : Fs}

theorem OnlyTable.allocated (hg : Geometry s) {f : ℕ} (hf : f < s.blockCount) : OnlyTable s (s.allocated f) :=
  (OnlyTable.putFAT hg FINAL hf).trans (.addFree _ _)

theorem allocated_fat (hg : Geometry s) {f b : ℕ} (hf : f < s.blockCount) (hb : b < s.blockCount) :
    (s.allocated f).fat b = if b = f then FINAL else s.fat b := putFAT_final_fat hg hf hb

theorem allocated_freeList (hg : Geometry s) {f : ℕ} {fs : List ℕ} (h : s.freeList = f :: fs) :
    (s.allocated f).freeList = fs := by
  have hf := mem_freeList.mp (h ▸ List.mem_cons_self : f ∈ s.freeList)
  refine freeList_tail h rfl fun c hc => ?_
  rw [allocated_fat hg hf.1 hc]
  split_ifs with hcf
  · simp [hcf, FINAL]
  · simp [hcf]

theorem WellFormed.free_apart (hw : WellFormed s) {k b : ℕ} (hk : s.image.Live k) (hb : b ∈ s.freeList) :
    b ∉ s.image.chain k := by
  intro hm
  have hne := (hw.image.owns k hk).fat_ne_zero b hm
  rw [image_fat] at hne
  exact hne (mem_freeList.mp hb).2

theorem Target.listed (hw : WellFormed s) {path : Str} {p f : ℕ} {fs : List ℕ} (ht : Target s path p f fs)
    (hp : s.image.Live p) : Listed (s.allocated f) p := by
  have hmem : f ∈ s.freeList := ht.free ▸ List.mem_cons_self
  have hf := (mem_freeList.mp hmem).1
  refine (listed_of_live hw hp ht.directory).congr hw.geometry (hw.image.live_data hp)
    (.allocated hw.geometry hf) fun b hb => ?_
  have hb' : b < s.blockCount := ((hw.image.owns p hp).data b hb).2
  rw [allocated_fat hw.geometry hf hb', if_neg]
  rintro rfl
  exact hw.free_apart hp hmem hb

theorem run_newFilePlace_astray (parent : FindResult) (hg : Geometry s)
    (hd : ¬ (parent.entry.len ≠ 0 ∧ parent.entry.isDirectory)) (newfile : DirEntry) (length : ℕ) (old : ℤ)
    (noalloc : Bool) : newFilePlace parent newfile length old noalloc s = some (.fail (-ENOTDIR), s) := by
  have hread := run_readDir hg parent.entry fun h => absurd h hd
  rw [if_neg hd] at hread
  have hneg : (-ENOTDIR : ℤ) < 0 := by decide
  unfold newFilePlace
  simp only [run_bind, run_get, Option.bind_some, hread, run_ite, hneg, ite_true, run_pure]

theorem allocated_entry (hg : Geometry s) {f k : ℕ} (hf : f < s.blockCount) (hk : s.IsSlot k) :
    (s.allocated f).entry k = s.entry k := (OnlyTable.allocated hg hf).entry hg hk

theorem allocated_owns (hw : WellFormed s) {p f : ℕ} {fs : List ℕ} (hfree : s.freeList = f :: fs)
    (hp : s.image.Live p) : (s.allocated f).image.Owns (s.entry p) (s.image.chain p) := by
  have hmem : f ∈ s.freeList := hfree ▸ List.mem_cons_self
  have hf := (mem_freeList.mp hmem).1
  have hframe := (OnlyTable.allocated hw.geometry hf).frame
  refine (hw.image.owns p hp).congr rfl (fun b hb => ?_) fun b hb =>
    hframe.isData.mpr ((hw.image.owns p hp).data b hb)
  have hb' : b < s.blockCount := ((hw.image.owns p hp).data b hb).2
  rw [image_fat, image_fat, allocated_fat hw.geometry hf hb', if_neg]
  rintro rfl
  exact hw.free_apart hp hmem hb

theorem allocated_chain (hw : WellFormed s) {p f : ℕ} {fs : List ℕ} (hfree : s.freeList = f :: fs)
    (hp : s.image.Live p) : (s.allocated f).image.chain p = s.image.chain p := by
  have hf := (mem_freeList.mp (hfree ▸ List.mem_cons_self : f ∈ s.freeList)).1
  rw [Image.chain]
  change (s.allocated f).image.chainOf ((s.allocated f).entry p) = _
  rw [allocated_entry hw.geometry hf (hw.image.live_data hp)]
  exact (allocated_owns hw hfree hp).chainOf_eq

theorem walkDirs_error {I : Image} {p : ℕ} {names : List Str} {status : ℤ}
    (hr : I.walkDirs p names = .error status) : status < 0 := by
  induction names generalizing p with
  | nil => cases hr
  | cons name names ih =>
    by_cases hw : I.Walkable p
    · cases hk' : I.findSlot p name with
      | none =>
        simp only [Image.walkDirs, hw, hk', ite_true, Except.error.injEq] at hr
        rw [← hr]
        decide
      | some k' =>
        simp only [Image.walkDirs, hw, hk', ite_true] at hr
        split_ifs at hr with hf
        · cases hr
          decide
        · exact ih hr
    · simp only [Image.walkDirs, hw, Bool.false_eq_true, ite_false, Except.error.injEq] at hr
      rw [← hr]
      decide

theorem allocated_fullDir (hg : Geometry s) {f p : ℕ} (hf : f < s.blockCount) (hk : s.IsSlot p) :
    (s.allocated f).FullDir p ↔ s.FullDir p := by
  rw [Driver.FullDir, Driver.FullDir, allocated_entry hg hf hk, (OnlyTable.allocated hg hf).frame.bs]

theorem allocated_endSlot (hw : WellFormed s) {p f : ℕ} {fs : List ℕ} (hfree : s.freeList = f :: fs)
    (hp : s.image.Live p) : (s.allocated f).endSlot p = s.endSlot p := by
  have hf := (mem_freeList.mp (hfree ▸ List.mem_cons_self : f ∈ s.freeList)).1
  have hcount : (s.allocated f).image.count p = s.image.count p :=
    congrArg (fun e : DirEntry => e.len / sizeofDirEntry) (allocated_entry hw.geometry hf (hw.image.live_data hp))
  rw [Driver.endSlot, Driver.endSlot, allocated_chain hw hfree hp, hcount, Image.slotAt, Image.slotAt,
    (OnlyTable.allocated hw.geometry hf).frame.epb]

theorem chain_getLastD (hw : WellFormed s) {p : ℕ} (hp : s.image.Live p) :
    (s.image.chain p).getLastD 0 = (s.image.chain p).getLast (hw.image.owns p hp).ne_nil := by
  rw [List.getLastD_eq_getLast?, List.getLast?_eq_getLast_of_ne_nil (hw.image.owns p hp).ne_nil]
  rfl

theorem newFilePlace_target (hw : WellFormed s) {path : Str} {p f : ℕ} {fs : List ℕ} (ht : Target s path p f fs)
    (hp : s.image.Live p) (newfile : DirEntry) (length : ℕ) {parent : FindResult}
    (hparent : IsParent s p parent) :
    newFilePlace parent newfile length f false (s.allocated f) =
      match (s.allocated f).freedSlot p with
      | some k => newFileFinish parent newfile (320 * k) length f false false
          ((s.allocated f).storeEntry newfile (320 * k))
      | none =>
        if s.FullDir p then newFileExpand parent newfile length (((s.image.chain p).getLastD 0 : ℕ) : ℤ)
          f false (s.allocated f)
        else if (s.entry p).len ≤ s.bs - sizeofDirEntry ∧ ¬ (fs ≠ [] ∧ updiv length s.bs ≤ fs.length) then
          some (.fail (-ENOSPC), (s.allocated f).putFAT 0 f)
        else newFileFinish parent newfile (320 * s.endSlot p) length f false true
          ((s.allocated f).storeEntry newfile (320 * s.endSlot p)) := by
  have hg := hw.geometry
  have hf := (mem_freeList.mp (ht.free ▸ List.mem_cons_self : f ∈ s.freeList)).1
  have hslot := hw.image.live_data hp
  have honly := OnlyTable.allocated hg hf
  have hga := honly.frame.geometry hg
  have hlisted := ht.listed hw hp
  have hentry := allocated_entry hg hf hslot
  have hp' : IsParent (s.allocated f) p parent :=
    ⟨hparent.status, hparent.entry.trans hentry.symm, hparent.offset⟩
  have hlastD : ((s.allocated f).image.chain p).getLast hlisted.chain_ne = (s.image.chain p).getLastD 0 := by
    rw [chain_getLastD hw hp]
    simp only [allocated_chain hw ht.free hp]
  rw [run_newFilePlace_finish hga hlisted hp' newfile length f false]
  cases (s.allocated f).freedSlot p with
  | some k => rfl
  | none =>
    dsimp only
    simp only [hlastD, allocated_fullDir hg hf hslot, hentry, allocated_endSlot hw ht.free hp,
      allocated_freeList hg ht.free, honly.frame.bs, true_and]

theorem allocated_used (hg : Geometry s) {f : ℕ} (hf : f < s.blockCount) : (s.allocated f).fat f ≠ 0 := by
  rw [allocated_fat hg hf hf, if_pos rfl]
  decide

theorem newFileExpand_target (hw : WellFormed s) {path : Str} {p f : ℕ} {fs : List ℕ}
    (ht : Target s path p f fs) (hp : s.image.Live p) (newfile : DirEntry) (length : ℕ) (parent : FindResult) :
    newFileExpand parent newfile length (((s.image.chain p).getLastD 0 : ℕ) : ℤ) f false (s.allocated f) =
      match fs with
      | [] => some (.fail (-ENOSPC), (s.allocated f).putFAT 0 f)
      | g :: fs => if fs.length + 1 < 2 + updiv length s.bs then some (.fail (-ENOSPC), (s.allocated f).putFAT 0 f)
        else newFileFinish parent (newfile.setStart g) (320 * (f * s.image.epb)) length f false true
          ((((s.allocated f).putFAT ((s.image.chain p).getLastD 0 : ℕ) f).addFree (-1)).storeEntry (newfile.setStart g)
            (320 * (f * s.image.epb))) := by
  have hg := hw.geometry
  have hf := (mem_freeList.mp (ht.free ▸ List.mem_cons_self : f ∈ s.freeList)).1
  have honly := OnlyTable.allocated hg hf
  have hlastd := (hw.image.owns p hp).data _ (List.getLast_mem (hw.image.owns p hp).ne_nil)
  rw [← chain_getLastD hw hp] at hlastd
  have hpos := hlastd.1
  rw [run_newFileExpand_finish (honly.frame.geometry hg) newfile length ((s.image.chain p).getLastD 0) f
    (honly.frame.blockCount ▸ hf) (allocated_used hg hf) (honly.frame.blockCount ▸ hlastd.2) (by omega),
    allocated_freeList hg ht.free]
  cases fs with
  | nil => rfl
  | cons g fs => simp only [honly.frame.bs, honly.frame.epb]

theorem newFilePlace_created (hw : WellFormed s) {path : Str} {p f : ℕ} {fs : List ℕ}
    (ht : Target s path p f fs)
    (hp : s.image.Live p) {length : ℕ} (hlen : length ≤ sizeofDirEntry) (type : FileType) {parent : FindResult}
    (hparent : IsParent s p parent) :
    ∃ r t, newFilePlace parent (ownEntry path length type f) length f false (s.allocated f) = some (r, t) ∧
      Created s path length type r t := by
  have hg := hw.geometry
  have hf := (mem_freeList.mp (ht.free ▸ List.mem_cons_self : f ∈ s.freeList)).1
  have hslot := hw.image.live_data hp
  have honly := OnlyTable.allocated hg hf
  have hentry := allocated_entry hg hf hslot
  have hp' : IsParent (s.allocated f) p parent :=
    ⟨hparent.status, hparent.entry.trans hentry.symm, hparent.offset⟩
  have hbs := hg.blockSize
  have hone : length ≤ s.bs := hlen.trans (by omega)
  have hblocks : updiv length s.bs ≤ 1 := (updiv_le_iff _ _ _ hg.bs_pos).mpr (by omega)
  have hone' : length ≤ (s.allocated f).bs := by
    rw [honly.frame.bs]
    exact hone
  rw [newFilePlace_target hw ht hp (ownEntry path length type f) length hparent]
  cases hk : (s.allocated f).freedSlot p with
  | some k =>
    dsimp only
    rw [run_newFileFinish hp' (ownEntry path length type f) k length f false false hone' _ rfl]
    exact ⟨_, _, rfl, .recycled ht hk⟩
  | none =>
    dsimp only
    by_cases hfd : s.FullDir p
    · rw [if_pos hfd, newFileExpand_target hw ht hp]
      cases fs with
      | nil => exact ⟨_, _, rfl, .stuck ht hk hfd (by simp)⟩
      | cons g fs =>
        dsimp only
        by_cases hfew : fs.length + 1 < 2 + updiv length s.bs
        · rw [if_pos hfew]
          exact ⟨_, _, rfl, .stuck ht hk hfd (by simpa using hfew)⟩
        · have hf' : f < (s.allocated f).blockCount := by
            rw [honly.frame.blockCount]
            exact hf
          have hput := hp'.putFAT (honly.frame.geometry hg) (honly.frame.isSlot.mpr hslot)
            ((s.image.chain p).getLastD 0 : ℕ) hf'
          have hp'' : IsParent
              (((s.allocated f).putFAT ((s.image.chain p).getLastD 0 : ℕ) f).addFree (-1)) p parent :=
            ⟨hput.status, hput.entry.trans (addFree_entry _ _ _).symm, hput.offset⟩
          have hframe :=
            (honly.frame.trans (.putFAT _ ((s.image.chain p).getLastD 0 : ℕ) f)).trans (.addFree _ (-1))
          have hone'' : length ≤
              (((s.allocated f).putFAT ((s.image.chain p).getLastD 0 : ℕ) f).addFree (-1)).bs := by
            rw [hframe.bs]
            exact hone
          have hfinish :=
            run_newFileFinish hp'' ((ownEntry path length type f).setStart g) (f * s.image.epb) length f
            false true hone'' _ rfl
          rw [if_neg hfew, hfinish]
          exact ⟨_, _, rfl, .expanded ht hk hfd (by omega)⟩
    · rw [if_neg hfd]
      by_cases hc : (s.entry p).len ≤ s.bs - sizeofDirEntry ∧ ¬ (fs ≠ [] ∧ updiv length s.bs ≤ fs.length)
      · rw [if_pos hc]
        have hnil : fs = [] := by
          by_contra hne
          exact hc.2 ⟨hne, hblocks.trans (List.length_pos_of_ne_nil hne)⟩
        subst hnil
        exact ⟨_, _, rfl, .crowded ht hk hfd hc.1⟩
      · rw [if_neg hc, run_newFileFinish hp' (ownEntry path length type f) (s.endSlot p) length f false true
          hone' _ rfl]
        exact ⟨_, _, rfl, .appended ht hk hfd fun h₁ h₂ => hc ⟨h₁, fun h => h.1 h₂⟩⟩

theorem run_newFile_found (hw : WellFormed s) {path : Str}
    (hstay : s.image.StaysLive s.image.rootSlot (pathNames path).dropLast) {p : ℕ}
    (hl : s.lookupParent path = .ok p)
    (hshort : (lastName path).length ≤ THORNFAT_PATH_MAX) (length : ℕ) (type : FileType)
    (times : Option Times) :
    newFile path length type times false s =
      match s.load.freeList with
      | [] => some (.fail (-ENOSPC), s.load)
      | f :: _ => newFilePlace (s.found (lastName path) (.ok p))
          (((newEntry length type times).setStart f).setName (lastName path)) length f false (s.load.allocated f) := by
  have hgl := hw.load.geometry
  have hfind := run_find_parent hw path (hstay.walkReadable hw.image .root)
  have hnot : ¬ ((Driver.found s (lastName path) (.ok p)).status < 0 ∧
      (Driver.found s (lastName path) (.ok p)).status ≠ -ENOENT) := fun h => absurd h.1 (lt_irrefl 0)
  have hlong : ¬ THORNFAT_PATH_MAX < (Driver.found s (lastName path) (.ok p)).last_name.length :=
    not_lt.mpr hshort
  rw [hl] at hfind
  change find path true s = some (s.found (lastName path) (.ok p), s.load) at hfind
  unfold newFile
  rw [run_bind, hfind, Option.bind_some]
  dsimp only
  rw [run_ite, if_neg hnot, run_ite, if_neg hlong, run_bind, run_findFreeBlock, Option.bind_some]
  dsimp only
  cases hfree : s.load.freeList with
  | nil =>
    have hnone : s.load.firstFree = UNUSABLE := by
      rw [Driver.firstFree, hfree]
      rfl
    rw [hnone]
    rfl
  | cons f fs =>
    have hused : ((f : ℕ) : ℤ) ≠ UNUSABLE := by
      simp only [UNUSABLE]
      omega
    rw [firstFree_cons hgl hfree, run_ite, if_neg (by decide), run_ite, if_neg hused, run_bind, run_writeFAT,
      Option.bind_some, run_bind, run_addBlocksFree, Option.bind_some]
    rfl

theorem newFile_created (hw : WellFormed s) {path : Str}
    (hstay : s.image.StaysLive s.image.rootSlot (pathNames path).dropLast) {length : ℕ}
    (hlen : length ≤ sizeofDirEntry) (type : FileType) :
    ∃ r t, newFile path length type none false s = some (r, t) ∧ Created s.load path length type r t := by
  have hwl := hw.load
  have hgl := hwl.geometry
  have hfind := run_find_parent hw path (hstay.walkReadable hw.image .root)
  have htake : ∀ f fs, s.load.freeList = f :: fs → f < s.load.blockCount := fun f fs h =>
    (mem_freeList.mp (h ▸ List.mem_cons_self : f ∈ s.load.freeList)).1
  cases hl : s.lookupParent path with
  | error status =>
    have hneg : status < 0 := walkDirs_error hl
    unfold newFile
    rw [run_bind, hfind, Option.bind_some, hl]
    dsimp only
    by_cases hst : status = -ENOENT
    · have hnot : ¬ ((Driver.found s (lastName path) (.error status)).status < 0 ∧
          (Driver.found s (lastName path) (.error status)).status ≠ -ENOENT) := fun h => h.2 hst
      simp only [run_ite]
      rw [lastName] at hnot
      rw [if_neg hnot, if_neg (by simp [Driver.found, FindResult.fail]), run_bind, run_findFreeBlock,
        Option.bind_some]
      dsimp only
      cases hfree : s.load.freeList with
      | nil =>
        have hnone : s.load.firstFree = UNUSABLE := by
          rw [Driver.firstFree, hfree]
          rfl
        rw [hnone]
        exact ⟨_, _, rfl, .full hfree⟩
      | cons f fs =>
        have hused : ((f : ℕ) : ℤ) ≠ UNUSABLE := by
          simp only [UNUSABLE]
          omega
        have hplace := run_newFilePlace_astray (s := s.load.allocated f) (.fail status)
          ((OnlyTable.allocated hgl (htake f fs hfree)).frame.geometry hgl) (fun h => h.1 rfl)
          (((newEntry length type none).setStart f).setName []) length f false
        refine ⟨.fail (-ENOTDIR), s.load.allocated f, ?_, .astray hfree (.inl (hl.trans (by rw [hst])))⟩
        rw [firstFree_cons hgl hfree, run_ite, if_neg (by decide), run_ite, if_neg hused, run_bind,
          run_writeFAT, Option.bind_some, run_bind, run_addBlocksFree, Option.bind_some]
        exact hplace
    · simp only [run_ite]
      rw [if_pos ⟨hneg, hst⟩]
      exact ⟨_, _, rfl, .lost hl hst⟩
  | ok p =>
    have hp : s.load.image.Live p := hstay.walkDirs .root hl
    by_cases hlong : THORNFAT_PATH_MAX < (lastName path).length
    · have hnot : ¬ ((Driver.found s ((pathNames path).getLastD []) (.ok p)).status < 0 ∧
          (Driver.found s ((pathNames path).getLastD []) (.ok p)).status ≠ -ENOENT) := fun h => absurd h.1 (lt_irrefl 0)
      have hlong' : THORNFAT_PATH_MAX <
          (Driver.found s ((pathNames path).getLastD []) (.ok p)).last_name.length := hlong
      unfold newFile
      rw [run_bind, hfind, Option.bind_some, hl]
      dsimp only
      rw [run_ite, if_neg hnot, run_ite, if_pos hlong']
      exact ⟨_, _, rfl, .long hl hlong⟩
    have hshort := Nat.le_of_not_lt hlong
    rw [run_newFile_found hw hstay hl hshort]
    cases hfree : s.load.freeList with
    | nil => exact ⟨_, _, rfl, .full hfree⟩
    | cons f fs =>
      dsimp only
      by_cases hd : (s.load.entry p).isDirectory
      · have ht : Target s.load path p f fs := ⟨hl, hshort, hd, hfree⟩
        exact newFilePlace_created hwl ht hp hlen type ⟨rfl, rfl, rfl⟩
      · have hga := (OnlyTable.allocated hgl (htake f fs hfree)).frame.geometry hgl
        have hplace := run_newFilePlace_astray (Driver.found s (lastName path) (.ok p)) hga
          (fun h => hd h.2) (ownEntry path length type f) length f false
        exact ⟨_, _, hplace, .astray hfree (.inr ⟨p, hl, hshort, Bool.eq_false_iff.mpr hd⟩)⟩

end Outcome

structure Home (s : Fs) (path : Str) (p : ℕ) : Prop where
  parent : s.lookupParent path = .ok p
  short : (lastName path).length ≤ THORNFAT_PATH_MAX
  directory : (s.entry p).isDirectory

/-- The directory has a freed slot, or room behind its last entry, or a block to be had. -/
def Driver.HasPlace (s : Fs) (path : Str) : Prop :=
  ∃ p, Home s path p ∧ (s.freedSlot p ≠ none ∨ ¬ s.FullDir p ∨ s.freeList ≠ [])

/-- The ways `newFile` ends when it only looks for a place for an entry: it
fails with nothing done, or the place holds an entry without a block. -/
inductive Placed (s : Fs) (path : Str) (newfile : DirEntry) : NewFileResult → Fs → Prop
  | lost {status : ℤ} (hneg : status < 0) (hno : ¬ s.HasPlace path) : Placed s path newfile (.fail status) s
  | recycled {p k : ℕ} (ht : Home s path p) (hk : s.freedSlot p = some k) :
      Placed s path newfile (s.newResult p k newfile false) (s.entered p k newfile false true)
  | appended {p : ℕ} (ht : Home s path p) (hk : s.freedSlot p = none) (hroom : ¬ s.FullDir p) :
      Placed s path newfile (s.newResult p (s.endSlot p) newfile true) (s.entered p (s.endSlot p) newfile true true)
  | expanded {p f : ℕ} {fs : List ℕ} (ht : Home s path p) (hk : s.freedSlot p = none) (hfull : s.FullDir p)
      (hfree : s.freeList = f :: fs) :
      Placed s path newfile
        ((s.putFAT ((s.image.chain p).getLastD 0 : ℕ) f).newResult p (f * s.image.epb) newfile true)
        (s.expanded p ((s.image.chain p).getLastD 0) f newfile)

section Placed
variable {s : Fs}

theorem newFilePlace_placed (hg : Geometry s) {path : Str} {p : ℕ} (ht : Home s path p) (hslot : s.IsSlot p)
    (hlisted : Listed s p) (newfile : DirEntry) {parent : FindResult} (hparent : IsParent s p parent) :
    ∃ r t, newFilePlace parent newfile 0 s.firstFree true s = some (r, t) ∧ Placed s path newfile r t := by
  have hplace := run_newFilePlace hg hlisted hparent newfile 0 (Nat.zero_le _) s.firstFree true
  rw [hplace]
  cases hk : s.freedSlot p with
  | some k => exact ⟨_, _, rfl, .recycled ht hk⟩
  | none =>
    dsimp only
    by_cases hfd : s.FullDir p
    · have hlastD : (s.image.chain p).getLastD 0 = (s.image.chain p).getLast hlisted.chain_ne := by
        rw [List.getLastD_eq_getLast?, List.getLast?_eq_getLast_of_ne_nil hlisted.chain_ne]
        rfl
      have hexpand :=
        run_newFileExpand_noalloc hg hslot hparent newfile 0 ((s.image.chain p).getLastD 0) (Nat.zero_le _)
      rw [if_pos hfd, ← hlastD, hexpand]
      cases hfree : s.freeList with
      | nil =>
        refine ⟨_, _, rfl, .lost (by decide) ?_⟩
        rintro ⟨q, hq, hplace⟩
        obtain rfl : p = q := Except.ok.inj (ht.parent.symm.trans hq.parent)
        tauto
      | cons f fs => exact ⟨_, _, rfl, .expanded ht hk hfd hfree⟩
    · rw [if_neg hfd, if_neg fun h => absurd h.1 (by decide)]
      exact ⟨_, _, rfl, .appended ht hk hfd⟩

/-- The directory that is to hold what the path names can be found and gone through. -/
structure Driver.Houses (s : Fs) (path : Str) : Prop where
  clean : s.image.WalkReadable s.image.rootSlot (pathNames path).dropLast
  listed : ∀ p, s.lookupParent path = .ok p → (s.entry p).isDirectory → Listed s p

theorem Target.home {path : Str} {p f : ℕ} {fs : List ℕ} (ht : Target s path p f fs) : Home s path p :=
  ⟨ht.parent, ht.short, ht.directory⟩

theorem Home.slot {path : Str} {p : ℕ} (ht : Home s path p) (hw : WellFormed s) (h : s.Houses path) : s.IsSlot p :=
  parent_slot hw h.clean ht.parent

theorem Home.listed {path : Str} {p : ℕ} (ht : Home s path p) (h : s.Houses path) : Listed s p :=
  h.listed p ht.parent ht.directory

theorem houses_of_stays (hw : WellFormed s) {path : Str}
    (hstay : s.image.StaysLive s.image.rootSlot (pathNames path).dropLast) : s.Houses path where
  clean := hstay.walkReadable hw.image .root
  listed _ hp hd := listed_of_live hw (hstay.walkDirs .root hp) hd

theorem Driver.Houses.load {path : Str} (h : s.Houses path) : s.load.Houses path where
  clean := h.clean
  listed p hp hd :=
    let hl := h.listed p hp hd
    ⟨hl.readable, hl.directory, hl.pos, hl.whole, hl.first⟩

theorem newFile_placed (hw : WellFormed s) {path : Str} (hhouses : s.Houses path) (type : FileType)
    (times : Option Times) :
    ∃ r t, newFile path 0 type times true s = some (r, t) ∧
      Placed s.load path ((newEntry 0 type times).setStart 0) r t := by
  have hwl := hw.load
  have hgl := hwl.geometry
  have hfind := run_find_parent hw path hhouses.clean
  unfold newFile
  rw [run_bind, hfind, Option.bind_some]
  dsimp only
  cases hl : s.lookupParent path with
  | error status =>
    have hneg : status < 0 := walkDirs_error hl
    have hno : ¬ s.load.HasPlace path := by
      rintro ⟨q, hq, -⟩
      exact absurd (hl.symm.trans hq.parent) (by simp)
    simp only [run_ite]
    by_cases hst : status = -ENOENT
    · have hnot : ¬ ((Driver.found s (lastName path) (.error status)).status < 0 ∧
          (Driver.found s (lastName path) (.error status)).status ≠ -ENOENT) := fun h => h.2 hst
      have hplace := run_newFilePlace_astray (.fail status) hgl (fun h => h.1 rfl)
        ((newEntry 0 type times).setStart 0) 0 s.load.firstFree true
      rw [lastName] at hnot
      rw [if_neg hnot, if_neg (by simp [Driver.found, FindResult.fail]), run_bind, run_findFreeBlock,
        Option.bind_some]
      exact ⟨_, _, hplace, .lost (by decide) hno⟩
    · rw [if_pos ⟨hneg, hst⟩]
      exact ⟨_, _, rfl, .lost hneg hno⟩
  | ok p =>
    have hnot : ¬ ((Driver.found s (lastName path) (.ok p)).status < 0 ∧
        (Driver.found s (lastName path) (.ok p)).status ≠ -ENOENT) := fun h => absurd h.1 (lt_irrefl 0)
    rw [lastName] at hnot
    simp only [run_ite]
    rw [if_neg hnot]
    by_cases hlong : THORNFAT_PATH_MAX < (lastName path).length
    · have hlong' : THORNFAT_PATH_MAX <
          (Driver.found s ((pathNames path).getLastD []) (.ok p)).last_name.length := hlong
      rw [if_pos hlong']
      refine ⟨_, _, rfl, .lost (by decide) ?_⟩
      rintro ⟨q, hq, -⟩
      exact absurd hq.short (not_le.mpr hlong)
    have hlong' : ¬ THORNFAT_PATH_MAX <
        (Driver.found s ((pathNames path).getLastD []) (.ok p)).last_name.length := hlong
    rw [if_neg hlong', run_bind, run_findFreeBlock, Option.bind_some]
    by_cases hd : (s.load.entry p).isDirectory
    · have ht : Home s.load path p := ⟨hl, Nat.le_of_not_lt hlong, hd⟩
      exact newFilePlace_placed hgl ht (ht.slot hwl hhouses.load) (ht.listed hhouses.load)
        ((newEntry 0 type times).setStart 0) ⟨rfl, rfl, rfl⟩
    · have hplace := run_newFilePlace_astray (Driver.found s (lastName path) (.ok p)) hgl
        (fun h => hd h.2) ((newEntry 0 type times).setStart 0) 0 s.load.firstFree true
      refine ⟨_, _, hplace, .lost (by decide) ?_⟩
      rintro ⟨q, hq, -⟩
      obtain rfl : p = q := Except.ok.inj (hl.symm.trans hq.parent)
      exact hd hq.directory

end Placed

end Thorn.FatDriver

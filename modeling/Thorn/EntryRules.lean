import Thorn.RootCopies

set_option autoImplicit false

/-!
# What no edit leaves

The driver changes the partition by setting cells and storing entries. A relation
between two states that neither leaves holds from the state before `newFile`,
`rename` and the giving back of blocks to the state after.
-/
namespace Thorn.FatDriver
open ByteStore Paths FatTypes FatOperations FatImage LinkedChain

/-- A relation that storing an entry in one of the slots `K` does not leave either. -/
structure EntryRule (R : Fs → Fs → Prop) (G : Fs → Prop) (C : Fs → ℕ → ℤ → Prop) (K : Fs → ℕ → Prop) : Prop
    extends TableRule R G C where
  slot {s t : Fs} {k : ℕ} : R s t → K s k → K t k
  storeEntry {s : Fs} {k : ℕ} (e : DirEntry) : G s → K s k → R s (s.storeEntry e (320 * k))
  moved {s : Fs} {p k : ℕ} (e : DirEntry) : G s → K s p → K s k → R s (s.moved e (320 * p) k)

/-- The slots that `newFile` stores entries in: the directory's own, one of its slots that is not in use, the one
behind its last, and the first of a free block. -/
inductive Driver.Touches (s : Fs) (path : Str) : ℕ → Prop
  | directory {p : ℕ} (ht : Home s path p) : Touches s path p
  | vacant {p k : ℕ} (ht : Home s path p) (hk : k ∈ s.image.slots p) (hfree : ¬ s.image.Live k) : Touches s path k
  | behind {p : ℕ} (ht : Home s path p) (hroom : ¬ s.FullDir p) : Touches s path (s.endSlot p)
  | block {f : ℕ} (hf : f ∈ s.freeList) : Touches s path (f * s.image.epb)

section Touches
variable {s t : Fs} {path : Str} {k : ℕ}

theorem Driver.Touches.slot (h : s.Touches path k) (hw : WellFormed s) (hh : s.Houses path) : s.IsSlot k := by
  cases h with
  | directory ht => exact ht.slot hw hh
  | vacant ht hk => exact (ht.listed hh).readable.slot_data hw.geometry.epb_pos hk
  | behind ht hroom => exact (ht.listed hh).endSlot_slot hw.geometry hroom
  | block hf => exact (block_takes hw hf).slot

theorem freedSlot_vacant (hw : WellFormed s) {p : ℕ} (hk : s.freedSlot p = some k) : ¬ s.image.Live k := fun hl => by
  have hkeep : s.free (s.entry k) = false := (hw.image.owns k hl).not_free
  rw [(freedSlot_some hk).2] at hkeep
  cases hkeep

theorem allocated_vacant (hw : WellFormed s) {p f : ℕ} {fs : List ℕ} (hfree : s.freeList = f :: fs)
    (hk : (s.allocated f).freedSlot p = some k) : ¬ s.image.Live k := fun hl => by
  have hf := (mem_freeList.mp (hfree ▸ List.mem_cons_self : f ∈ s.freeList)).1
  have hkeep : (s.allocated f).free (s.entry k) = false := (allocated_owns hw hfree hl).not_free
  rw [← allocated_entry hw.geometry hf (hw.image.live_data hl), (freedSlot_some hk).2] at hkeep
  cases hkeep

theorem Target.touches {p f : ℕ} {fs : List ℕ} (ht : Target s path p f fs)
    (hk : (s.allocated f).freedSlot p = some k) (hw : WellFormed s)
    (hstay : s.image.StaysLive s.image.rootSlot (pathNames path).dropLast) : s.Touches path k := by
  have hp : s.image.Live p := hstay.walkDirs .root ht.parent
  exact .vacant ht.home (List.mem_of_mem_drop (allocated_freedSlot hw ht.free hp hk)) (allocated_vacant hw ht.free hk)

theorem Created.reports {length : ℕ} {type : FileType} {r : NewFileResult} (hw : WellFormed s)
    (hstay : s.image.StaysLive s.image.rootSlot (pathNames path).dropLast) (hc : Created s path length type r t)
    (hr : 0 ≤ r.status) : (∃ k, r.offset = 320 * k ∧ s.Touches path k) ∧ ∃ b ∈ s.freeList, r.entry.start = b := by
  have hg := hw.geometry
  have hhead : ∀ {f fs}, s.freeList = f :: fs → f ∈ s.freeList := fun {f fs} h => h ▸ List.mem_cons_self
  have hown : ∀ {f}, f ∈ s.freeList → (ownEntry path length type f).start = f := fun {f} hf =>
    ownEntry_start hg path length type (mem_freeList.mp hf).1
  cases hc with
  | lost hl => exact absurd (walkDirs_error hl) (not_lt.mpr hr)
  | long | full | astray | crowded | stuck => exact absurd hr (by decide)
  | recycled ht hk =>
    exact ⟨⟨_, rfl, ht.touches hk hw hstay⟩, _, hhead ht.free, hown (hhead ht.free)⟩
  | appended ht hk hroom => exact ⟨⟨_, rfl, .behind ht.home hroom⟩, _, hhead ht.free, hown (hhead ht.free)⟩
  | @expanded p f g fs ht hk hfull henough =>
    have hgmem : g ∈ s.freeList := by
      rw [ht.free]
      exact List.mem_cons_of_mem _ List.mem_cons_self
    refine ⟨⟨_, rfl, .block (hhead ht.free)⟩, g, hgmem, ?_⟩
    exact (DirEntry.setStart_start _ _).trans (hg.toInt32_block (mem_freeList.mp hgmem).1)

theorem Placed.reports {e : DirEntry} {r : NewFileResult} (hw : WellFormed s) (hc : Placed s path e r t)
    (hr : 0 ≤ r.status) : ∃ k, r.offset = 320 * k ∧ s.Touches path k := by
  cases hc with
  | lost hneg => exact absurd hr (not_le.mpr hneg)
  | recycled ht hk => exact ⟨_, rfl, .vacant ht (freedSlot_some hk).1 (freedSlot_vacant hw hk)⟩
  | appended ht hk hroom => exact ⟨_, rfl, .behind ht hroom⟩
  | expanded ht hk hfull hfree => exact ⟨_, rfl, .block (hfree ▸ List.mem_cons_self)⟩

end Touches

namespace EntryRule
variable {R : Fs → Fs → Prop} {G : Fs → Prop} {C : Fs → ℕ → ℤ → Prop} {K : Fs → ℕ → Prop} {s t : Fs}

section Places
variable {p k f : ℕ} {newfile : DirEntry} {path : Str}

theorem entered (h : EntryRule R G C K) (hs : G s) (hp : K s p) (hk : K s k) (grow : Bool) {noalloc : Bool}
    (hf : noalloc = true ∨ ∃ b : ℕ, newfile.start = b ∧ ∀ v, C s b v) :
    R s (s.entered p k newfile grow noalloc) := by
  have hstored := h.storeEntry newfile hs hk
  have hgrown : R s (s.entered p k newfile grow true) := by
    cases grow with
    | false => exact hstored
    | true => exact h.trans hstored (h.storeEntry _ (h.keeps hstored hs) (h.slot hstored hp))
  rcases hf with rfl | ⟨b, hb, hcell⟩
  · exact hgrown
  · cases noalloc with
    | true => exact hgrown
    | false =>
      have hlast := h.putFAT (h.keeps hgrown hs) (h.cell hgrown (hcell FINAL))
      rw [← hb] at hlast
      exact h.trans hgrown hlast

theorem allocated (h : EntryRule R G C K) (hs : G s) (hf : C s f FINAL) : R s (s.allocated f) :=
  h.trans (h.putFAT hs hf) (h.addFree _ (-1))

theorem created (h : EntryRule R G C K) (hw : WellFormed s)
    (hstay : s.image.StaysLive s.image.rootSlot (pathNames path).dropLast) (hs : G s)
    (hcells : ∀ b ∈ s.freeList, ∀ v, C s b v) (hslots : ∀ k, s.Touches path k → K s k) {length : ℕ}
    {type : FileType} {r : NewFileResult} (hc : Created s path length type r t) : R s t := by
  have hg := hw.geometry
  have hhead : ∀ {f fs}, s.freeList = f :: fs → f ∈ s.freeList := fun {f fs} h => h ▸ List.mem_cons_self
  have htaken : ∀ {f fs}, s.freeList = f :: fs → R s (s.allocated f) := fun {f fs} hfree =>
    h.allocated hs (hcells f (hhead hfree) FINAL)
  have hput : ∀ {p f k fs}, Target s path p f fs → s.Touches path k → ∀ grow : Bool,
      R s ((s.allocated f).entered p k (ownEntry path length type f) grow false) := by
    intro p f k fs ht hk grow
    have ha := htaken ht.free
    have hmem := hhead ht.free
    refine h.trans ha (h.entered (h.keeps ha hs) (h.slot ha (hslots p (.directory ht.home)))
      (h.slot ha (hslots k hk)) grow (.inr ⟨f, ?_, fun v => h.cell ha (hcells f hmem v)⟩))
    exact ownEntry_start hg path length type (mem_freeList.mp hmem).1
  have hback : ∀ {f fs}, s.freeList = f :: fs → R s ((s.allocated f).putFAT 0 f) := fun {f fs} hfree =>
    h.trans (htaken hfree) (h.putFAT (h.keeps (htaken hfree) hs) (h.cell (htaken hfree) (hcells f (hhead hfree) 0)))
  cases hc with
  | lost | long | full => exact h.refl s
  | astray hfree => exact htaken hfree
  | recycled ht hk => exact hput ht (ht.touches hk hw hstay) false
  | crowded ht | stuck ht => exact hback ht.free
  | appended ht hk hroom => exact hput ht (.behind ht.home hroom) true
  | @expanded p f g fs ht hk hfull henough =>
    have hmem := hhead ht.free
    have hgmem : g ∈ s.freeList := by
      rw [ht.free]
      exact List.mem_cons_of_mem _ List.mem_cons_self
    have ha := htaken ht.free
    have hlink := h.trans (h.trans ha (h.putFAT (h.keeps ha hs)
      (h.cell ha (hcells f hmem ((s.image.chain p).getLastD 0 : ℕ))))) (h.addFree _ (-1))
    refine h.trans hlink (h.entered (h.keeps hlink hs) (h.slot hlink (hslots p (.directory ht.home)))
      (h.slot hlink (hslots _ (.block hmem))) true (.inr ⟨g, ?_, fun v => h.cell hlink (hcells g hgmem v)⟩))
    rw [DirEntry.setStart_start, hg.toInt32_block (mem_freeList.mp hgmem).1]

theorem placed (h : EntryRule R G C K) (hw : WellFormed s) (hs : G s) (hcells : ∀ b ∈ s.freeList, ∀ v, C s b v)
    (hslots : ∀ k, s.Touches path k → K s k) {e : DirEntry} {r : NewFileResult} (hc : Placed s path e r t) :
    R s t := by
  cases hc with
  | lost => exact h.refl s
  | recycled ht hk =>
    exact h.entered hs (hslots _ (.directory ht))
      (hslots _ (.vacant ht (freedSlot_some hk).1 (freedSlot_vacant hw hk))) false (.inl rfl)
  | appended ht hk hroom =>
    exact h.entered hs (hslots _ (.directory ht)) (hslots _ (.behind ht hroom)) true (.inl rfl)
  | @expanded p f fs ht hk hfull hfree =>
    have hmem : f ∈ s.freeList := hfree ▸ List.mem_cons_self
    have hlink := h.putFAT hs (hcells f hmem ((s.image.chain p).getLastD 0 : ℕ))
    exact h.trans hlink (h.entered (h.keeps hlink hs) (h.slot hlink (hslots p (.directory ht)))
      (h.slot hlink (hslots _ (.block hmem))) true (.inl rfl))

theorem freed (h : EntryRule R G C K) (hs : G s) (hk : K s k) (hcells : ∀ b ∈ s.image.chain k, C s b 0)
    (e : DirEntry) :
    R s (((s.clearCells (s.image.chain k)).addFree (s.image.chain k).length).storeEntry e (320 * k)) := by
  have hclear := h.trans (h.clearCells hs hcells) (h.addFree _ (s.image.chain k).length)
  exact h.trans hclear (h.storeEntry e (h.keeps hclear hs) (h.slot hclear hk))

theorem renamed (h : EntryRule R G C K) (hw : WellFormed s) (hs : G s) (hcells : ∀ b ∈ s.freeList, ∀ v, C s b v)
    {srcpath destpath : Str} (hsrc : ∀ k, s.lookup srcpath = .ok k → K s k)
    (hdest : ∀ k d, s.lookup srcpath = .ok k → s.lookup destpath = .ok d → (s.entry d).isDirectory = false →
      K s d ∧ ∀ b ∈ s.image.chain d, C s b 0)
    (hslots : ∀ k, s.lookup srcpath = .ok k → s.lookup destpath = .error (-ENOENT) →
      ∀ j, s.Touches destpath j → K s j) {status : ℤ}
    (hr : Renamed s srcpath destpath status t) : R s t := by
  cases hr with
  | failed => exact h.refl s
  | @replaced k d hk hd hfile =>
    obtain ⟨hslot, hchain⟩ := hdest k d hk hd hfile
    have hgone := h.freed hs hslot hchain ((s.entry d).setStart 0)
    exact h.trans hgone (h.moved _ (h.keeps hgone hs) (h.slot hgone hslot) (h.slot hgone (hsrc k hk)))
  | @placed k type times r u hk hd ht hr =>
    have hput := h.placed hw hs hcells (hslots k hk hd) ht
    obtain ⟨j, hj, htouch⟩ := ht.reports hw hr
    rw [hj]
    exact h.trans hput
      (h.moved _ (h.keeps hput hs) (h.slot hput (hslots k hk hd j htouch)) (h.slot hput (hsrc k hk)))

end Places

end EntryRule

theorem SameFrame.entryRule : EntryRule SameFrame (fun _ => True) (fun _ _ _ => True) fun _ _ => True where
  toTableRule := SameFrame.tableRule
  slot _ _ := trivial
  storeEntry e _ _ := .storeEntry _ e _
  moved _ _ _ _ := (SameFrame.poke _ _ _).trans (.poke _ _ _)

theorem Created.frame {s t : Fs} {path : Str} {length : ℕ} {type : FileType} {r : NewFileResult} (hw : WellFormed s)
    (hstay : s.image.StaysLive s.image.rootSlot (pathNames path).dropLast) (hc : Created s path length type r t) :
    SameFrame s t :=
  SameFrame.entryRule.created hw hstay trivial (fun _ _ _ => trivial) (fun _ _ => trivial) hc

/-- Where `mkdir` stores the new directory's `..`. -/
theorem Created.first_slot {s t : Fs} {path : Str} {length : ℕ} {type : FileType} {r : NewFileResult}
    (hw : WellFormed s) (hstay : s.image.StaysLive s.image.rootSlot (pathNames path).dropLast)
    (hc : Created s path length type r t) (hr : 0 ≤ r.status) :
    ∃ b ∈ s.freeList, mul32 r.entry.start t.bs = 320 * (b * s.image.epb) := by
  obtain ⟨-, b, hb, hstart⟩ := hc.reports hw hstay hr
  refine ⟨b, hb, ?_⟩
  rw [hstart, (hc.frame hw hstay).bs, hw.geometry.mul32_block (mem_freeList.mp hb).1, ← hw.geometry.epb_mul]
  ring

namespace EntryRule
variable {R : Fs → Fs → Prop} {G : Fs → Prop} {C : Fs → ℕ → ℤ → Prop} {K : Fs → ℕ → Prop} {s t : Fs}

theorem lengthened (h : EntryRule R G C K) (hg : Geometry s) (hs : G s) {k size : ℕ}
    (hr : s.image.Readable (s.entry k)) (hk : K s k) (hle : (s.entry k).len ≤ size)
    (hcells : ∀ b ∈ s.image.chain k, ∀ v, C s b v) (hfree : ∀ b ∈ s.freeList, ∀ v, C s b v) :
    R s (s.resized (s.entry k) (320 * k) size) := by
  rw [Driver.resized]
  split_ifs with hsame
  · exact h.refl s
  · have hgrown := h.grown hg hr (lt_of_le_of_ne hle hsame) hs hcells hfree
    exact h.trans hgrown (h.storeEntry _ (h.keeps hgrown hs) (h.slot hgrown hk))

theorem cut (h : EntryRule R G C K) (hg : Geometry s) {k size : ℕ} (hr : s.image.Readable (s.entry k))
    (hlt : size < (s.entry k).len) (hz : G (s.zeroTail (s.entry k) size)) (hk : K (s.zeroTail (s.entry k) size) k)
    (hcells : ∀ b ∈ s.image.chain k, ∀ v, C (s.zeroTail (s.entry k) size) b v) :
    R (s.zeroTail (s.entry k) size) (s.resized (s.entry k) (320 * k) size) := by
  have hshrunk := h.shrunk hg hr hlt hz hcells
  rw [Driver.resized, if_neg (by omega)]
  exact h.trans hshrunk (h.storeEntry _ (h.keeps hshrunk hz) (h.slot hshrunk hk))

/-- From the state before a call to the one after, if the writing of a buffer and the sizing of a file allow it. -/
theorem ends (h : EntryRule R G C K) (hw : WellFormed s) {c : Call} (hclean : c.Clean s) (hs : G s.load)
    (hback : R s.load s) (hfree : ∀ b ∈ s.load.freeList, ∀ v, C s.load b v)
    (hnew : ∀ path k, s.load.Touches (simplifyPath path) k → K s.load k)
    (hplace : ∀ path ∈ c.paths, s.load.Houses path → ∀ k, s.load.Touches path k → K s.load k)
    (hentry : ∀ path ∈ c.paths, ∀ k, s.lookup path = .ok k → s.load.IsSlot k → K s.load k)
    (hchain : ∀ path ∈ c.paths, ∀ k, s.lookup path = .ok k → s.load.image.Readable (s.entry k) →
      ∀ b ∈ s.load.image.chain k, C s.load b 0)
    (hwritten : ∀ path buffer, ∀ offset k : ℕ, c = .write path buffer offset → s.lookup path = .ok k →
      offset / s.bs < (s.newChain (s.entry k) (max (s.entry k).len (offset + buffer.length))).length →
      R s.load (s.load.written (s.entry k) (320 * k) buffer offset))
    (hsized : ∀ path size k, c = .truncate path size → s.lookup path = .ok k →
      R s.load (s.load.resized (s.entry k) (320 * k) (toSize size)))
    {status : ℤ} (he : Ended s c status t) : R s.load t := by
  have hw' := hw.load
  have hcreated : ∀ {path length type r u}, Created s.load (simplifyPath path) length type r u → R s.load u :=
    fun {path _ _ _ _} hc => h.created hw' (clean_simplified hw' path) hs hfree (hnew path) hc
  have hstored : ∀ {path k} (e : DirEntry), path ∈ c.paths → s.lookup path = .ok k → s.Clean path →
      R s.load (s.load.storeEntry e (320 * k)) := fun {path k} e hp hk hc =>
    h.storeEntry e hs (hentry path hp k hk (lookup_slot hw' hc hk))
  have hremoved : ∀ {path k} (e : DirEntry), path ∈ c.paths → s.lookup path = .ok k → s.Clean path →
      s.load.image.Readable (s.entry k) →
      R s.load (((s.load.clearCells (s.load.image.chain k)).addFree (s.load.image.chain k).length).storeEntry e
        (320 * k)) := fun {path k} e hp hk hc hr =>
    h.freed hs (hentry path hp k hk (lookup_slot hw' hc hk)) (hchain path hp k hk hr) e
  cases he with
  | found | unwritten | unsized | linked | kept | unstamped | unread | listed => exact h.refl _
  | unnamed | known => exact hback
  | counted =>
    have hcount := h.addFree s (s.freeList.length - s.blocksFree)
    rw [Driver.addFree, add_sub_cancel] at hcount
    exact h.trans hback hcount
  | uncreated _ hc | unmade hc => exact hcreated hc
  | @created path modes r u _ hc hok =>
    obtain ⟨⟨k, hk, htouch⟩, -⟩ := hc.reports hw' (clean_simplified hw' path) hok
    have hu := hcreated hc
    rw [hk]
    exact h.trans hu (h.storeEntry _ (h.keeps hu hs) (h.slot hu (hnew path k htouch)))
  | @made path r u hc hok =>
    obtain ⟨b, hb, hposition⟩ := hc.first_slot hw' (clean_simplified hw' path) hok
    have hu := hcreated hc
    rw [hposition]
    exact h.trans hu (h.storeEntry _ (h.keeps hu hs) (h.slot hu (hnew path _ (.block hb))))
  | written hk _ hin _ => exact hwritten _ _ _ _ rfl hk hin
  | sized hk _ => exact hsized _ _ _ rfl hk
  | unlinked hk hfile => exact hremoved _ (by simp [Call.paths]) hk hclean.1 (hclean.2 _ hk hfile)
  | removed _ hk hdir _ => exact hremoved _ (by simp [Call.paths]) hk hclean.1 (hclean.2 _ hk hdir)
  | @renamed srcpath destpath _ _ hr =>
    obtain ⟨hsrc, hdest⟩ := hclean
    refine h.renamed hw' hs hfree
      (fun k hk => hentry srcpath (by simp [Call.paths]) k hk (lookup_slot hw' hsrc hk)) ?_ ?_ hr
    · intro k d hk hd hfile
      have hopens := (hdest k hk).1
      have hr : s.load.image.Readable (s.entry d) := hopens.2 d hd hfile
      exact ⟨hentry destpath (by simp [Call.paths]) d hd (lookup_slot hw' hopens.1 hd),
        hchain destpath (by simp [Call.paths]) d hd hr⟩
    · intro k hk hd
      exact hplace destpath (by simp [Call.paths]) ((hdest k hk).load.2 hd)
  | stamped hk | read hk => exact hstored _ (by simp [Call.paths]) hk hclean

end EntryRule

end Thorn.FatDriver

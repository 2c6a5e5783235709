import Thorn.ConfinedWrites
import Thorn.FatMount
import Thorn.FileRuns

set_option autoImplicit false

namespace Thorn.FatDriver
open ByteStore Paths FatTypes FatOperations FatImage LinkedChain

/-- The geometry in memory and the bytes in front of the table are what they were. -/
structure KeptHead (s t : Fs) : Prop where
  frame : SameFrame s t
  data : ∀ p < s.bs, t.data p = s.data p

namespace KeptHead
variable {s t u : Fs}

theorem still (hf : SameFrame s t) (h : t.partition = s.partition) : KeptHead s t where
  frame := hf
  data p _ := by simp only [Driver.data, h]

theorem trans (h : KeptHead s t) (h' : KeptHead t u) : KeptHead s u where
  frame := h.frame.trans h'.frame
  data p hp := (h'.data p (h.frame.bs.symm ▸ hp)).trans (h.data p hp)

theorem refl (s : Fs) : KeptHead s s := still (.refl s) rfl

theorem pokes {ps : List (ℕ × List UInt8)} (h : ∀ p ∈ ps, s.bs ≤ p.1 ∧ s.partition.offset + p.1 < 2 ^ 64) :
    KeptHead s (s.pokes ps) where
  frame := .pokes s ps
  data q hq := by
    rw [pokes_data s ps fun p hp => (h p hp).2]
    exact patches_outside _ _ _ fun p hp => .inl (hq.trans_le (h p hp).1)

theorem poke (hg : Geometry s) {r : Record} (h : s.Inside r) (l : List UInt8) : KeptHead s (s.poke r.offset l) := by
  have hbelow := h.below
  have hoffset := hg.offset
  change KeptHead s (s.pokes [(r.offset, l)])
  refine pokes fun p hp => ?_
  obtain rfl := List.mem_singleton.mp hp
  refine ⟨?_, by omega⟩
  rcases h.area with ⟨hle, -⟩ | ⟨b, hb, hle, -⟩
  · exact hle
  · have hone : 1 * s.bs ≤ b * s.bs :=
      Nat.mul_le_mul_right _ (Nat.one_le_iff_ne_zero.mpr (Nat.ne_zero_of_lt hb.1))
    omega

theorem putEntry (hg : Geometry s) {k : ℕ} (hk : s.IsSlot k) (e : DirEntry) : KeptHead s (s.putEntry k e) :=
  poke hg (inside_slot hg hk) e.encode

theorem entryRule : EntryRule KeptHead Geometry (fun s b _ => b < s.blockCount) Driver.IsSlot where
  refl := refl
  trans := trans
  keeps h := h.frame.geometry
  cell h hb := h.frame.blockCount ▸ hb
  addFree s n := still (.addFree s n) rfl
  putFAT hg hb := by
    rw [Driver.putFAT, hg.fatOffset_eq hb]
    exact poke hg (inside_cell hg hb) _
  slot h := h.frame.isSlot.mpr
  storeEntry {s k} e hg hk := by
    rw [storeEntry_eq hg]
    refine trans ?_ (still (.refresh _ e) (refresh_partition _ _))
    have hput := putEntry hg hk e
    rcases putEntries_cases hg k e with h | ⟨-, hk1, h⟩
    · rw [h]
      exact hput
    · rw [h]
      exact hput.trans (putEntry (hput.frame.geometry hg) (hput.frame.isSlot.mpr hk1) _)
  moved e hg hp hk :=
    have hput := putEntry hg hp e
    hput.trans (poke (hput.frame.geometry hg) (inside_slot (hput.frame.geometry hg) (hput.frame.isSlot.mpr hk)) _)

theorem zeroTail (hg : Geometry s) {e : DirEntry} (hr : s.image.Readable e) {size : ℕ} (hlt : size < e.len) :
    KeptHead s (s.zeroTail e size) := by
  unfold Driver.zeroTail
  split_ifs with hmod
  · exact refl s
  · refine pokes fun p hp => ?_
    obtain ⟨hle, hlt⟩ := zeroTail_writes hg hr hlt p hp
    have hoffset := hg.offset
    rw [Nat.add_mul, Nat.one_mul] at hle
    omega

theorem resized (hg : Geometry s) {k : ℕ} (hk : s.IsSlot k) (hr : s.image.Readable (s.entry k)) (size : ℕ) :
    KeptHead s (s.resized (s.entry k) (320 * k) size) := by
  have hchain : ∀ b ∈ s.image.chain k, b < s.blockCount := fun b hb => (hr.owns.data b hb).2
  rcases Nat.lt_or_ge size (s.entry k).len with hlt | hge
  · have hzero := zeroTail hg hr hlt
    exact hzero.trans (entryRule.cut hg hr hlt (hzero.frame.geometry hg) (hzero.frame.isSlot.mpr hk)
      fun b hb _ => hzero.frame.blockCount ▸ hchain b hb)
  · exact entryRule.lengthened hg hg hr hk hge (fun b hb _ => hchain b hb) fun b hb _ => (mem_freeList.mp hb).1

theorem written (hw : WellFormed s) {k : ℕ} (hk : s.IsSlot k) (hr : s.image.Readable (s.entry k))
    (buffer : List UInt8) (offset : ℕ)
    (hin : offset / s.bs < (s.newChain (s.entry k) (max (s.entry k).len (offset + buffer.length))).length) :
    KeptHead s (s.written (s.entry k) (320 * k) buffer offset) := by
  have hres := resized hw.geometry hk hr (max (s.entry k).len (offset + buffer.length))
  have hg := hres.frame.geometry hw.geometry
  have hbs := hres.frame.bs
  have hrange := spans_range hg (fun b hb => hres.frame.isData.mpr
    (newChain_data (fun f hf => hw.free_data hf) hr _ b hb)) (offset / s.bs) offset hin buffer
  rw [hbs] at hrange
  have hall := hres.trans (pokes fun p hp => by
    obtain ⟨hle, hlt⟩ := hrange p hp
    have hoffset := hg.offset
    rw [Nat.add_mul, Nat.one_mul] at hle
    omega)
  exact hall.trans (entryRule.storeEntry _ (hall.frame.geometry hw.geometry) (hall.frame.isSlot.mpr hk))

theorem call {c : Call} (h : Legal s c) : KeptHead s (c.after s) := by
  have hw := h.wf
  have hw' := hw.load
  have hg := hw'.geometry
  by_cases hstops : c.Stops s
  · rw [after_stops hw hstops]
    exact still (.load s) rfl
  obtain ⟨hclean, -, status, he⟩ := h.ended hstops
  refine trans (still (.load s) rfl) ?_
  refine entryRule.ends hw hclean hg (still ⟨rfl, rfl, rfl⟩ rfl) (fun b hb _ => (mem_freeList.mp hb).1)
    (fun path k hk => hk.slot hw' (houses_of_stays hw' (clean_simplified hw' path)))
    (fun _ _ hh k hk => hk.slot hw' hh) (fun _ _ _ _ hk => hk) (fun _ _ _ _ hr b hb => (hr.owns.data b hb).2)
    ?_ ?_ he
  · rintro path buffer offset k rfl hk hin
    exact .written hw' (lookup_slot hw' hclean.1 hk) (hclean.2 k hk trivial) _ _ hin
  · rintro path size k rfl hk
    exact resized hg (lookup_slot hw' hclean.1 hk) (hclean.2 k hk trivial) _

end KeptHead

structure Stamped (s : Fs) : Prop where
  bytes : slice s.data 0 sizeofSuperblock = s.superblock.encode
  fits : SuperblockFits s.superblock
  magic : s.superblock.magic = MAGIC

namespace Stamped
variable {s t : Fs}

theorem kept (h : Stamped s) (hbs : sizeofSuperblock ≤ s.bs) (ht : KeptHead s t) : Stamped t where
  bytes := by
    rw [ht.frame.superblock, ← h.bytes]
    exact slice_congr _ _ _ _ fun p _ hp => ht.data p (by omega)
  fits := ht.frame.superblock.symm ▸ h.fits
  magic := ht.frame.superblock.symm ▸ h.magic

theorem readSuperblock (h : Stamped s) (hg : Geometry s) (d : Fs) (hd : d.partition = s.partition) :
    readSuperblock d = some (0, { d with superblock := s.superblock }) := by
  have haddr : d.partition.offset + 0 < 2 ^ 64 := by
    rw [hd]
    exact hg.no_wrap (Nat.zero_le _)
  have hpeek : d.peek 0 sizeofSuperblock = s.superblock.encode := by
    have hdata : d.data = s.data := by
      funext p
      simp only [Driver.data, hd]
    rw [peek_eq_slice d 0 sizeofSuperblock haddr, hdata, h.bytes]
  simp only [FatOperations.readSuperblock, run_bind, run_partitionRead, Option.bind_some, run_modify, hpeek,
    decode_superblock h.fits, run_ite, ne_eq, not_true_eq_false, ite_false, run_pure, neg_zero]

theorem verify (h : Stamped s) (hg : Geometry s) : verify s = some (true, s) := by
  rw [FatOperations.verify, run_bind, h.readSuperblock hg s rfl, Option.bind_some, run_bind, run_get,
    Option.bind_some, run_pure]
  simp only [h.magic, and_self, decide_true]

theorem mount (h : Stamped s) (hg : Geometry s) :
    mount s.partition = some ⟨s.partition, s.superblock, -1, .empty, 0⟩ :=
  congrArg (Option.map Prod.snd) (h.readSuperblock hg ⟨s.partition, ⟨0, 0, 0, 0, 0⟩, -1, .empty, 0⟩ rfl)

end Stamped

theorem superblock_le {s : Fs} (hg : Geometry s) : sizeofSuperblock ≤ s.bs := by
  have h := hg.blockSize
  simp only [sizeofDirEntry, sizeofSuperblock] at h ⊢
  omega

/-- Whatever has been asked of the driver, `verify` finds the superblock, and a driver that is started anew finds the
same geometry. -/
theorem superblock_stands (s : Fs) (h : Stamped s) (hg : Geometry s) (calls : List Call)
    (hlegal : Runs.Throughout Call.after Legal s calls) {t : Fs} (ht : Runs.after Call.after s calls = t) :
    verify t = some (true, t) ∧ mount t.partition = some ⟨t.partition, s.superblock, -1, .empty, 0⟩ := by
  have hkeep : Runs.Always Call.after (fun t => KeptHead s t) s calls :=
    Runs.always_of_throughout (C := fun _ _ => True) (.still (.refl s) rfl)
      (fun u c hu hc _ => hu.trans (KeptHead.call hc)) hlegal Runs.throughout_true
  have hend := hkeep.after
  rw [ht] at hend
  have hstamped := h.kept (superblock_le hg) hend
  have hgeometry := hend.frame.geometry hg
  refine ⟨hstamped.verify hgeometry, ?_⟩
  rw [hstamped.mount hgeometry, hend.frame.superblock]

section Sample
open FatSample

theorem labelled_stamped : Stamped labelled where
  bytes := by
    have hself := slice_patch_self disk.data 0 disk.superblock.encode
    rw [superblock_length] at hself
    rw [labelled, poke_data _ _ _ (by decide)]
    exact hself
  fits := ⟨by decide, by decide, by decide, by decide, by decide⟩
  magic := by decide

def sampleCalls : List Call := [.unlink pathF, .utimens pathG 5, .write pathG [7, 8] (0 : ℕ), .countFree]

theorem pathG_fileAt {s : Fs} (h : s.lookup pathG = .ok 7 ∧ (s.entry 7).isDirectory = false) : s.FileAt pathG where
  dots := by
    unfold NoDots
    decide
  file k hk := by
    obtain rfl := Except.ok.inj (h.1.symm.trans hk)
    exact h.2

theorem sampleCalls_legal : Runs.Throughout Call.after Legal labelled sampleCalls := by
  have htree : Treelike labelled := picture_treelike labelled_wellFormed labelled_agree
  have hreturns : ∀ {c : Call} {s : Fs}, (c.run s).isSome → c.run s ≠ none := Option.isSome_iff_ne_none.mp
  -- `/g` stays where it is
  have hfirst : ((Call.unlink pathF).after labelled).lookup pathG = .ok 7 ∧
      (((Call.unlink pathF).after labelled).entry 7).isDirectory = false := by
    decide +kernel
  have hsecond : ((Call.utimens pathG 5).after ((Call.unlink pathF).after labelled)).lookup pathG = .ok 7 ∧
      (((Call.utimens pathG 5).after ((Call.unlink pathF).after labelled)).entry 7).isDirectory = false := by
    decide +kernel
  have hone : (((Call.utimens pathG 5).after ((Call.unlink pathF).after labelled)).image.chain 7).length = 1 := by
    decide +kernel
  have hunlinked := (htree.carries labelled_unlink pathF_noDots).tree
  have hstamp : Legal ((Call.unlink pathF).after labelled) (.utimens pathG 5) :=
    ⟨hunlinked.wf, .inr ⟨clean_of_noDots hunlinked.wf (pathG_fileAt hfirst).dots, trivial⟩,
      hreturns (by decide +kernel)⟩
  have hstamped := (hunlinked.carries hstamp (pathG_fileAt hfirst)).tree
  have hwrite : Legal ((Call.utimens pathG 5).after ((Call.unlink pathF).after labelled))
      (.write pathG [7, 8] (0 : ℕ)) :=
    ⟨hstamped.wf, .inr ⟨opens_of_noDots hstamped.wf (pathG_fileAt hfirst).dots fun _ => True,
      fun _ _ => .inr ⟨by decide, by decide⟩⟩, hreturns (by decide +kernel)⟩
  have htame : Call.Tame ((Call.utimens pathG 5).after ((Call.unlink pathF).after labelled))
      (.write pathG [7, 8] (0 : ℕ)) := by
    refine ⟨pathG_fileAt hsecond, fun k hk => .inr ?_⟩
    obtain rfl := Except.ok.inj (hsecond.1.symm.trans hk)
    exact hone
  have hwritten := (hstamped.carries hwrite htame).tree
  have hcount : Legal ((Call.write pathG [7, 8] (0 : ℕ)).after
      ((Call.utimens pathG 5).after ((Call.unlink pathF).after labelled))) .countFree :=
    ⟨hwritten.wf, .inr ⟨trivial, trivial⟩, hreturns (by decide +kernel)⟩
  exact Runs.throughout_cons.mpr ⟨labelled_unlink, Runs.throughout_cons.mpr ⟨hstamp,
    Runs.throughout_cons.mpr ⟨hwrite, Runs.throughout_cons.mpr ⟨hcount, Runs.throughout_nil⟩⟩⟩⟩

theorem superblock_stands_run :
    verify (Runs.after Call.after labelled sampleCalls) = some (true, Runs.after Call.after labelled sampleCalls) ∧
      mount (Runs.after Call.after labelled sampleCalls).partition =
        some ⟨(Runs.after Call.after labelled sampleCalls).partition, labelled.superblock, -1, .empty, 0⟩ := by
  generalize ht : Runs.after Call.after labelled sampleCalls = t
  exact superblock_stands labelled labelled_stamped labelled_geometry sampleCalls sampleCalls_legal ht

end Sample

end Thorn.FatDriver

import Thorn.FatWrite
import Thorn.FatSample

set_option autoImplicit false

namespace Thorn.FatDriver
open ByteStore Paths FatTypes FatOperations FatImage LinkedChain

theorem block_eq (s : Fs) (b : ℕ) : s.block b = blockAt s.data s.bs b := rfl

section Growth
variable {s : Fs} {e : DirEntry}

theorem len_le_chain (hg : Geometry s) (h : s.image.Readable e) :
    e.len ≤ (s.image.chainOf e).length * s.bs := by
  rw [← updiv_le_iff _ _ _ hg.bs_pos, chain_length hg h]
  omega

theorem len_small (hg : Geometry s) (h : s.image.Readable e) : e.len < 2 ^ 32 :=
  calc e.len ≤ (s.image.chainOf e).length * s.bs := len_le_chain hg h
    _ ≤ s.blockCount * s.bs := Nat.mul_le_mul_right _ h.owns.length_le
    _ < 2 ^ 32 := hg.small

theorem newChain_grown (hg : Geometry s) (h : s.image.Readable e) {size : ℕ} (hle : e.len ≤ size) :
    ∃ fs, s.newChain e size = s.image.chainOf e ++ fs := by
  have hm := chain_length hg h
  have hmono := updiv_mono hg.bs_pos hle
  simp only [Driver.newChain]
  split_ifs with hc
  · refine ⟨[], ?_⟩
    rw [List.take_of_length_le (by omega), List.append_nil]
  · exact ⟨_, rfl⟩

theorem reblocked_grown (hg : Geometry s) (h : s.image.Readable e) {size : ℕ} (hlt : e.len < size) :
    OnlyTable s (s.reblocked e size) :=
  OnlyTable.tableRule.grown hg h hlt hg (fun b hb _ => (h.owns.data b hb).2) fun _ hb _ => (mem_freeList.mp hb).1

theorem reblocked_shrunk (hg : Geometry s) (h : s.image.Readable e) {size : ℕ} (hlt : size < e.len) :
    OnlyTable (s.zeroTail e size) (s.reblocked e size) :=
  have hframe := SameFrame.zeroTail s e size
  OnlyTable.tableRule.shrunk hg h hlt (hframe.geometry hg) fun b hb _ => hframe.blockCount ▸ (h.owns.data b hb).2

theorem SameFrame.resized (s : Fs) (e : DirEntry) (o size : ℕ) : SameFrame s (s.resized e o size) := by
  unfold Driver.resized
  split_ifs
  · exact .refl s
  · exact (SameFrame.reblocked s e size).trans (.storeEntry _ _ _)

theorem newChain_self (hg : Geometry s) (h : s.image.Readable e) : s.newChain e e.len = s.image.chainOf e := by
  have hm := chain_length hg h
  simp only [Driver.newChain]
  rw [if_pos (by omega), List.take_of_length_le (by omega)]

theorem resized_owns (hg : Geometry s) (hfree : ∀ f ∈ s.freeList, s.image.IsData f) (h : s.image.Readable e)
    {k : ℕ} (hk : s.IsSlot k) (size : ℕ) :
    (s.resized e (320 * k) size).image.Owns (e.setLength size) (s.newChain e size) := by
  have hframe := SameFrame.reblocked s e size
  unfold Driver.resized
  split_ifs with hsame
  · rw [← hsame, newChain_self hg h, setLength_self]
    exact h.owns
  · exact storeEntry_owns (hframe.geometry hg) (hframe.isSlot.mpr hk) _ (reblocked_owns hg hfree h size)
      (DirEntry.setLength_start e size)

theorem resized_block (hg : Geometry s) (h : s.image.Readable e) {k : ℕ} (hk : s.IsSlot k) {size b : ℕ}
    (hle : e.len ≤ size) (hb : s.image.IsData b) (hkb : k / s.image.epb ≠ b) :
    (s.resized e (320 * k) size).block b = s.block b := by
  have hframe := SameFrame.reblocked s e size
  unfold Driver.resized
  split_ifs with hsame
  · rfl
  · have hlt : e.len < size := lt_of_le_of_ne hle hsame
    have hkb' : k / (s.reblocked e size).image.epb ≠ b := by
      rw [hframe.epb]
      exact hkb
    rw [storeEntry_block (hframe.geometry hg) (hframe.isSlot.mpr hk) _ hkb', Driver.block, Driver.block]
    have htable := (reblocked_grown hg h hlt).block hg hb
    rw [hframe.superblock]
    exact htable

end Growth

def Driver.written (s : Fs) (e : DirEntry) (o : ℕ) (buffer : List UInt8) (offset : ℕ) : Fs :=
  let size := max e.len (offset + buffer.length)
  ((s.resized e o size).pokes
    (spans s.bs ((s.newChain e size).drop (offset / s.bs)) (offset % s.bs) buffer)).storeEntry (e.setLength size) o

section Run
variable {s : Fs} {e : DirEntry}

theorem write_fits (hg : Geometry s) (h : s.image.Readable e) {size offset n : ℕ} (hroom : ¬ s.TooLarge e size)
    (hn : 1 ≤ n) (hsize : offset + n ≤ size) :
    offset / s.bs < (s.newChain e size).length ∧ offset + n ≤ (s.newChain e size).length * s.bs := by
  have hlen := newChain_length h hroom
  have hle : size ≤ (s.newChain e size).length * s.bs := by
    rw [← updiv_le_iff _ _ _ hg.bs_pos]
    omega
  refine ⟨(Nat.div_lt_iff_lt_mul hg.bs_pos).mpr ?_, by omega⟩
  omega

/-- `write`, once its path has led to slot `k`: it fails before it has changed
anything, or it stores the whole buffer. -/
theorem run_write (hw : WellFormed s) {path : Str} {k : ℕ}
    (hwalk : s.image.WalkReadable s.image.rootSlot (pathNames path)) (hk : s.lookup path = .ok k)
    (h : s.image.Readable (s.entry k)) (hslot : s.IsSlot k) (buffer : List UInt8) (offset : ℕ)
    (h1 : 1 ≤ buffer.length)
    (hn : buffer.length < 2 ^ 31) (ho : offset ≤ (s.entry k).len) :
    write path buffer offset s =
      some (if s.TooLarge (s.entry k) (max (s.entry k).len (offset + buffer.length)) then (-ENOSPC, s.load)
        else ((buffer.length : ℤ), s.load.written (s.entry k) (320 * k) buffer offset)) := by
  have hg := hw.geometry
  have hgl := (SameFrame.load s).geometry hg
  have hsmall := len_small hg h
  have hstop : toSize ((offset : ℤ) + buffer.length) = offset + buffer.length := by
    exact_mod_cast toSize_natCast (offset + buffer.length) (by omega)
  have hsize : (if (s.entry k).len < offset + buffer.length then offset + buffer.length else (s.entry k).len) =
      max (s.entry k).len (offset + buffer.length) := by
    split_ifs <;> omega
  have hfree : ∀ f ∈ s.freeList, s.image.IsData f := fun f hf => hw.free_data hf
  have hresize := run_resize_eq (s := s.load) hgl
    (fun f hf => by have := (hfree f hf).1; omega) h (320 * k) (max (s.entry k).len (offset + buffer.length))
  unfold write
  simp only [run_bind, run_get, Option.bind_some, run_find hw path hwalk, hk, Driver.found, run_ite, run_pure,
    lt_self_iff_false, ite_false, hstop, hsize]
  rw [hresize, Option.bind_some]
  by_cases hroom : s.TooLarge (s.entry k) (max (s.entry k).len (offset + buffer.length))
  · have hroom' : s.load.TooLarge (s.entry k) (max (s.entry k).len (offset + buffer.length)) := hroom
    rw [if_pos hroom, if_pos hroom']
    rfl
  · have hroom' : ¬ s.load.TooLarge (s.entry k) (max (s.entry k).len (offset + buffer.length)) := hroom
    have hk' : s.load.IsSlot k := hslot
    have howns := resized_owns hgl hfree h hk' (max (s.entry k).len (offset + buffer.length))
    have hfits := write_fits hgl h hroom' h1 (Nat.le_max_right _ _)
    have hframe := SameFrame.resized s.load (s.entry k) (320 * k) (max (s.entry k).len (offset + buffer.length))
    rw [if_neg hroom, if_neg hroom']
    dsimp only
    rw [if_neg (lt_irrefl _), Int.toNat_natCast]
    simp only [Driver.written]
    generalize hu : s.load.resized (s.entry k) (320 * k) (max (s.entry k).len (offset + buffer.length)) = u at *
    generalize s.load.newChain (s.entry k) (max (s.entry k).len (offset + buffer.length)) = l at *
    have hbs : s.superblock.blockSize = u.bs := hframe.bs.symm
    have hbl : s.load.bs = u.bs := hframe.bs.symm
    obtain ⟨b, hb, hc⟩ := howns.start
    have hgu := hframe.geometry hgl
    rw [hbl] at hfits ⊢
    rw [hbs, hb, run_writeSkipLoop hgu hc offset (offset + 1) (by omega) hfits.1, Option.bind_some]
    have hdata := (howns.data _ (List.getElem_mem hfits.1)).1
    have hcheck : (1 : ℤ) ≤ (l[offset / u.bs] : ℕ) := by omega
    rw [run_checkBlock _ hcheck, Option.bind_some, run_writeData hgu howns buffer offset hfits.1 hfits.2,
      Option.bind_some]
    dsimp only
    rw [if_neg (lt_irrefl _), run_writeEntry, Option.bind_some, toInt32_of_range _ (by omega) (by omega)]

end Run

section Content
variable {s : Fs} {e : DirEntry}

theorem spans_range {u : Fs} (hg : Geometry u) {l : List ℕ} (hl : ∀ b ∈ l, u.image.IsData b) (j offset : ℕ)
    (hj : j < l.length) (buffer : List UInt8) :
    ∀ p ∈ spans u.bs (l.drop j) (offset % u.bs) buffer,
      (u.fatBlocks + 1) * u.bs ≤ p.1 ∧ p.1 < 2 ^ 63 := by
  have hne : l.drop j ≠ [] := by
    rw [ne_eq, List.drop_eq_nil_iff]
    omega
  intro p hp
  obtain ⟨b, hb, h₁, h₂⟩ := spans_within u.bs _ _ buffer hne (Nat.mod_lt offset hg.bs_pos).le p hp
  have hrange := data_range hg (hl b (List.mem_of_mem_drop hb))
  have hlen := hg.length
  omega

theorem newChain_nodup (h : s.image.Readable e) (size : ℕ) : (s.newChain e size).Nodup := by
  simp only [Driver.newChain]
  split_ifs
  · exact h.owns.nodup.sublist (List.take_sublist _ _)
  · exact (freeList_apart h).sublist ((List.take_sublist _ _).append_left _)

theorem newChain_apart (size : ℕ) {b : ℕ} (hb : b ∉ s.image.chainOf e) (hfat : s.fat b ≠ 0) :
    b ∉ s.newChain e size := by
  simp only [Driver.newChain]
  split_ifs
  · exact fun hm => hb (List.mem_of_mem_take hm)
  · intro hm
    rcases List.mem_append.mp hm with hm | hm
    · exact hb hm
    · exact hfat (mem_freeList.mp (List.mem_of_mem_take hm)).2

theorem take_overlay (bytes : List UInt8) (n offset : ℕ) (buffer : List UInt8) (ho : offset ≤ n)
    (hn : n ≤ bytes.length) :
    (overlay bytes offset buffer).take (max n (offset + buffer.length)) = overlay (bytes.take n) offset buffer := by
  have hlen : (bytes.take offset ++ buffer).length = offset + buffer.length := by
    rw [List.length_append, List.length_take, Nat.min_eq_left (by omega)]
  have hrest : max n (offset + buffer.length) - (offset + buffer.length) = n - (offset + buffer.length) := by
    omega
  rw [overlay, overlay, List.take_append, List.take_of_length_le (by omega), hlen, hrest, List.take_take,
    Nat.min_eq_left ho, List.drop_take]

theorem written_content (hg : Geometry s) (hfree : ∀ f ∈ s.freeList, s.image.IsData f) (h : s.image.Readable e)
    {k : ℕ} (hk : s.IsSlot k) (hapart : k / s.image.epb ∉ s.image.chainOf e)
    (hfat : s.fat (k / s.image.epb : ℕ) ≠ 0) (buffer : List UInt8) (offset : ℕ) (h1 : 1 ≤ buffer.length)
    (ho : offset ≤ e.len) (hroom : ¬ s.TooLarge e (max e.len (offset + buffer.length))) :
    (s.written e (320 * k) buffer offset).entry k = e.setLength (max e.len (offset + buffer.length)) ∧
    (s.written e (320 * k) buffer offset).image.Owns (e.setLength (max e.len (offset + buffer.length)))
      (s.newChain e (max e.len (offset + buffer.length))) ∧
    (e.setLength (max e.len (offset + buffer.length))).len = max e.len (offset + buffer.length) ∧
    (s.written e (320 * k) buffer offset).content (e.setLength (max e.len (offset + buffer.length))) =
      overlay (s.content e) offset buffer := by
  have hfits := write_fits hg h hroom h1 (Nat.le_max_right _ _)
  have howns := resized_owns hg hfree h hk (max e.len (offset + buffer.length))
  have hframe := SameFrame.resized s e (320 * k) (max e.len (offset + buffer.length))
  have hblock := fun b => resized_block hg h hk (b := b) (Nat.le_max_left e.len (offset + buffer.length))
  have hdata := newChain_data hfree h (max e.len (offset + buffer.length))
  have hnodup := newChain_nodup h (max e.len (offset + buffer.length))
  have hnot := newChain_apart (max e.len (offset + buffer.length)) hapart hfat
  obtain ⟨fs, hfs⟩ := newChain_grown hg h (Nat.le_max_left e.len (offset + buffer.length))
  have hsize : max e.len (offset + buffer.length) ≤
      (s.newChain e (max e.len (offset + buffer.length))).length * s.bs := by
    rw [← updiv_le_iff _ _ _ hg.bs_pos]
    have := newChain_length h hroom
    omega
  have hcount : (s.newChain e (max e.len (offset + buffer.length))).length * s.bs < 2 ^ 32 :=
    (Nat.mul_le_mul_right _ (howns.length_le.trans_eq hframe.blockCount)).trans_lt hg.small
  have hover :
      (overlay (gather s.data s.bs (s.newChain e (max e.len (offset + buffer.length)))) offset buffer).take
      (max e.len (offset + buffer.length)) = overlay (s.content e) offset buffer := by
    have hle := len_le_chain hg h
    rw [take_overlay _ _ _ _ ho (by rw [gather_length, hfs, List.length_append, Nat.add_mul]; omega), hfs,
      gather_append, List.take_append_of_le_length (by rw [gather_length]; exact hle)]
    rfl
  simp only [Driver.written]
  generalize s.resized e (320 * k) (max e.len (offset + buffer.length)) = u at *
  generalize s.newChain e (max e.len (offset + buffer.length)) = l at *
  generalize max e.len (offset + buffer.length) = size at *
  have hgu := hframe.geometry hg
  have hbs : u.bs = s.bs := hframe.bs
  have hdatau : ∀ b ∈ l, u.image.IsData b := fun b hb => hframe.isData.mpr (hdata b hb)
  have hrange := spans_range hgu hdatau (offset / s.bs) offset (by omega) buffer
  rw [hbs] at hrange
  have hframev := SameFrame.pokes u (spans s.bs (l.drop (offset / s.bs)) (offset % s.bs) buffer)
  have hpatch := pokes_data u (spans s.bs (l.drop (offset / s.bs)) (offset % s.bs) buffer) fun p hp => by
    have h₁ := (hrange p hp).2
    have h₂ := hgu.offset
    omega
  have hkeep := fun b hb => pokes_fat hgu (spans s.bs (l.drop (offset / s.bs)) (offset % s.bs) buffer)
    (by rw [hbs]; exact hrange) (b := b) hb
  generalize u.pokes (spans s.bs (l.drop (offset / s.bs)) (offset % s.bs) buffer) = v at *
  have hgv := hframev.geometry hgu
  have hkv : v.IsSlot k := hframev.isSlot.mpr (hframe.isSlot.mpr hk)
  have hownsv : v.image.Owns (e.setLength size) l :=
    howns.congr rfl (fun b hb => hkeep b (hdatau b hb).2) fun b hb => hframev.isData.mpr (hdatau b hb)
  have hownst := storeEntry_owns hgv hkv (e.setLength size) hownsv rfl
  refine ⟨?_, hownst, ?_, ?_⟩
  · rw [storeEntry_entry hgv hkv, if_pos rfl]
  · rw [DirEntry.setLength_len, Nat.mod_eq_of_lt (by omega)]
  · have hbst : (v.storeEntry (e.setLength size) (320 * k)).bs = s.bs := by
      rw [(SameFrame.storeEntry v _ _).bs, hframev.bs, hbs]
    have hgather : gather (v.storeEntry (e.setLength size) (320 * k)).data s.bs l = gather v.data s.bs l := by
      apply gather_congr
      intro b hb
      have hkb : k / v.image.epb ≠ b := by
        rw [hframev.epb, hframe.epb]
        exact fun he => hnot (he ▸ hb)
      have hstore := storeEntry_block hgv hkv (e.setLength size) hkb
      rwa [block_eq, block_eq, hbst, hframev.bs, hbs] at hstore
    have hold : gather u.data s.bs l = gather s.data s.bs l := by
      apply gather_congr
      intro b hb
      have hres := hblock b (hdata b hb) fun he => hnot (he ▸ hb)
      rwa [block_eq, block_eq, hbs] at hres
    have hlen : (e.setLength size).len = size := by
      rw [DirEntry.setLength_len, Nat.mod_eq_of_lt (by omega)]
    rw [Driver.content, hownst.chainOf_eq, hbst, hlen, hgather, hpatch,
      gather_write u.data s.bs hg.bs_pos l hnodup offset buffer hfits.1 hfits.2, hold]
    exact hover

end Content

/-- The entry at a position keeps its length and content when the call fails;
else it holds the buffer at the offset, over what it held before. -/
def StoresContent (s t : Fs) (position : ℕ) (buffer : List UInt8) (offset : ℕ) (status : ℤ) : Prop :=
  let e := entryAt s.data position
  let e' := entryAt t.data position
  (0 ≤ status → status = buffer.length ∧ e'.len = max e.len (offset + buffer.length) ∧
    t.image.Owns e' (t.image.chainOf e') ∧ t.content e' = overlay (s.content e) offset buffer) ∧
  (status < 0 → e'.len = e.len ∧ t.content e' = s.content e)

theorem write_content (s : Fs) (hw : WellFormed s) (path : Str) (hp : NoDots path)
    (found : FindResult) (t : Fs) (hf : find path false s = some (found, t)) (h0 : 0 ≤ found.status)
    (hfile : found.entry.isFile) (buffer : List UInt8) (h1 : 1 ≤ buffer.length) (hn : buffer.length < 2 ^ 31)
    (offset : ℤ) (ho : 0 ≤ offset) (hL : offset ≤ found.entry.len) :
    ∃ status u, write path buffer offset s = some (status, u) ∧
      StoresContent s u found.offset buffer offset.toNat status := by
  obtain ⟨rfl, k, hk, hlive, rfl⟩ := find_live hw hp hf h0
  obtain ⟨offset, rfl⟩ := Int.eq_ofNat_of_zero_le ho
  have hg := hw.geometry
  have hr : s.image.Readable (s.entry k) := hw.image.readable hlive
  have hwalk := hw.image.walkReadable .root (hw.image.avoidsCopies .root hp.1 hp.2)
  have hslot : s.IsSlot k := hw.image.live_data hlive
  have hle : offset ≤ (s.entry k).len := by exact_mod_cast hL
  rw [run_write hw hwalk hk hr hslot buffer offset h1 hn hle]
  by_cases hroom : s.TooLarge (s.entry k) (max (s.entry k).len (offset + buffer.length))
  · refine ⟨-ENOSPC, s.load, by rw [if_pos hroom], fun h => absurd h (by decide), fun _ => ⟨rfl, rfl⟩⟩
  · have hd : (s.entry k).isDirectory = false := by
      have hcode : (s.entry k).type = FileType.File.code := by simpa [DirEntry.isFile] using hfile
      simp [DirEntry.isDirectory, hcode, FileType.code]
    obtain ⟨p, hpl, -, hslots⟩ := hw.image.live_mem hlive
    have hfat := (hw.image.owns p hpl).fat_ne_zero _ (hw.image.slot_mem hpl hslots)
    obtain ⟨hentry, howns, hlen, hcontent⟩ := written_content (s := s.load)
      ((SameFrame.load s).geometry hg) (fun f hf => hw.free_data hf) hr hslot
      (hw.image.live_apart hlive hlive hd) hfat buffer offset h1 hle hroom
    refine ⟨buffer.length, _, by rw [if_neg hroom], fun _ => ?_, fun h => absurd h (by omega)⟩
    change _ ∧ (Driver.entry _ k).len = _ ∧
        Image.Owns _ (Driver.entry _ k) (Image.chainOf _ (Driver.entry _ k)) ∧
      Driver.content _ (Driver.entry _ k) = _
    rw [hentry, howns.chainOf_eq]
    exact ⟨rfl, hlen, howns, hcontent⟩

open FatSample in
/-- Bytes 600 to 1499 of `f`: the end of its first block, its second, and a third that it takes. -/
theorem write_content_f : ∃ status u, write pathF (List.replicate 900 7) 600 disk = some (status, u) ∧
    StoresContent disk u (320 * 6) (List.replicate 900 7) 600 status := by
  have hentry := disk_entry_f
  exact write_content disk disk_wellFormed pathF pathF_noDots _ _ (disk_find pathF_noDots disk_lookup_f) le_rfl
    (by rw [hentry]; decide) (List.replicate 900 7) (by rw [List.length_replicate]; decide)
    (by rw [List.length_replicate]; decide) 600 (by decide) (by rw [hentry]; decide)

end Thorn.FatDriver

import Thorn.CreatedFiles
import Thorn.FilePlaces
import Thorn.Library.NamedStore
import Thorn.ReadContent
import Thorn.RecutFiles

set_option autoImplicit false

namespace Thorn.FatDriver
open ByteStore Paths FatTypes FatOperations FatImage LinkedChain NamedStore

/-- `t` is `s` with the file in slot `k` worked over: it has the blocks `c`, which were its own or free. -/
structure Reworked (s t : Fs) (k : ℕ) (c : List ℕ) : Prop where
  frame : SameFrame s t
  root : t.root = s.root
  data : ∀ p, s.image.IsData (p / s.bs) → p / s.bs ∉ s.image.chain k → p / s.bs ∉ c →
    ¬ (320 * k ≤ p ∧ p < 320 * k + 320) → t.data p = s.data p
  fat : ∀ b < s.blockCount, b ∉ c → t.fat b = if b ∈ s.image.chain k then 0 else s.fat b
  owns : t.image.Owns (t.entry k) c
  fresh : ∀ b ∈ c, b ∈ s.image.chain k ∨ s.fat b = 0
  size : c.length = s.blocksFor (t.entry k).len
  name : (t.entry k).name = (s.entry k).name
  still : (t.entry k).isDirectory = false

namespace Reworked
variable {s t : Fs} {k f : ℕ} {c : List ℕ}

theorem isData (h : Reworked s t k c) {b : ℕ} (hb : b ∈ c) : s.image.IsData b :=
  h.frame.isData.mp (h.owns.data b hb)

theorem apart (hw : WellFormed s) (h : Reworked s t k c) (hk : s.image.Live k) (hf : s.image.Live f)
    (hne : f ≠ k) {b : ℕ} (hb : b ∈ s.image.chain f) : b ∉ s.image.chain k ∧ b ∉ c := by
  have hnot : b ∉ s.image.chain k := hw.image.disjoint f k hf hk hne hb
  refine ⟨hnot, fun hc => ?_⟩
  rcases h.fresh b hc with hold | hfree
  · exact hnot hold
  · exact (hw.image.owns f hf).fat_ne_zero b hb hfree

theorem fat_other (hw : WellFormed s) (h : Reworked s t k c) (hk : s.image.Live k) (hf : s.image.Live f)
    (hne : f ≠ k) {b : ℕ} (hb : b ∈ s.image.chain f) : t.fat b = s.fat b := by
  obtain ⟨hnot, hc⟩ := h.apart hw hk hf hne hb
  rw [h.fat b ((hw.image.owns f hf).data b hb).2 hc, if_neg hnot]

theorem entry_listed (hw : WellFormed s) (h : Reworked s t k c) (hk : s.image.Live k)
    (hfile : (s.entry k).isDirectory = false) {p i : ℕ} (hp : s.image.Live p) (hd : (s.entry p).isDirectory)
    (hi : i ∈ s.image.slots p) (hik : i ≠ k) : t.entry i = s.entry i := by
  have hg := hw.geometry
  have hblock : i / s.image.epb ∈ s.image.chain p := hw.image.slot_mem hp hi
  obtain ⟨hnot, hc⟩ := h.apart hw hk hp (directory_ne hfile hd) hblock
  have hrange := slot_range hg i
  rw [entry_eq, entry_eq, (slice_eq_iff s.data t.data (320 * i) 320).mpr fun q hq hq' => ?_]
  have hdiv : q / s.bs = i / s.image.epb := by
    rw [Nat.div_eq_iff hg.bs_pos]
    omega
  exact h.data q (hdiv ▸ (hw.image.owns p hp).data _ hblock) (hdiv ▸ hnot) (hdiv ▸ hc) (by omega)

theorem recut (hw : WellFormed s) (h : Reworked s t k c) (hk : s.image.Live k)
    (hfile : (s.entry k).isDirectory = false) : s.image.Recut t.image k c where
  shape := h.frame.shape
  live := hk
  file := hfile
  still := h.still
  entry p i hp hd hi hik := h.entry_listed hw hk hfile hp hd hi hik
  fat q hq hne b hb := h.fat_other hw hk hq hne hb
  reserved b hb := by
    have hlow : ¬ s.image.IsData b := fun hd => absurd hb (not_le.mpr hd.1)
    have hchain : b ∉ s.image.chain k := fun hm => hlow ((hw.image.owns k hk).data b hm)
    have hlt : b < s.blockCount := hw.image.block_lt hb
    exact (h.fat b hlt fun hc => hlow (h.isData hc)).trans (if_neg hchain)
  owns := h.owns
  size := by
    have hbs := hw.geometry.image_bs
    rw [h.size, Image.blocksFor, Driver.blocksFor, hbs]
    rfl
  apart q hq hne b hb hc := (h.apart hw hk hq hne hb).2 hc
  unowned b hb hc hno := by
    have hfat := h.fat b hb.2 hc
    split_ifs at hfat with hold
    · exact hfat
    · refine hfat.trans (hw.image.unowned b hb fun q hq => ?_)
      by_cases hqk : q = k
      · rwa [hqk]
      · exact hno q hq hqk

theorem sound (hs : Sound s) (h : Reworked s t k c) (hk : s.image.Live k)
    (hfile : (s.entry k).isDirectory = false) : Sound t := by
  have hcut := h.recut hs.wf hk hfile
  have hroot : t.root = t.entry t.image.rootSlot := by
    have hd := hs.wf.image.root_directory
    rw [h.root, hs.root, h.frame.rootSlot]
    exact (hcut.entry_live hs.wf.image .root (hcut.ne_directory hd)).symm
  exact ⟨⟨h.frame.geometry hs.wf.geometry, hcut.wellFormed hs.wf.image hs.tidy, fun _ => hroot⟩,
    hcut.tidy hs.wf.image hs.tidy, hroot⟩

theorem orderly (hs : Orderly s) (h : Reworked s t k c) (hk : s.image.Live k)
    (hfile : (s.entry k).isDirectory = false) : Orderly t :=
  ⟨h.sound hs.toSound hk hfile,
    (h.recut hs.wf hk hfile).uniqueNames hs.wf.image hs.tidy h.name hs.unique⟩

theorem kept (hw : WellFormed s) (h : Reworked s t k c) (hk : s.image.Live k)
    (hkfile : (s.entry k).isDirectory = false) (hf : s.image.Live f) (hfile : (s.entry f).isDirectory = false)
    (hne : f ≠ k) : FileKept s t f := by
  have hg := hw.geometry
  refine (fileKept_iff hw hf h.frame fun b hb => h.fat_other hw hk hf hne hb).mpr fun p hp => ?_
  obtain ⟨hdata, -⟩ := holds_used hw hf hp
  have hslot := slot_range hg k
  have hin : 320 * k ≤ p ∧ p < 320 * k + 320 → p / s.bs = k / s.image.epb := fun hin => by
    rw [Nat.div_eq_iff hg.bs_pos]
    omega
  rcases holds_block hw hf hp with ⟨hlow, hhigh, hdiv⟩ | hmem
  · obtain ⟨q, hq, hqd, hmem⟩ := hw.image.live_mem hf
    have hblock : f / s.image.epb ∈ s.image.chain q := hw.image.slot_mem hq hmem
    obtain ⟨hnot, hc⟩ := h.apart hw hk hq (directory_ne hkfile hqd) hblock
    exact h.data p hdata (hdiv ▸ hnot) (hdiv ▸ hc) (by omega)
  · obtain ⟨hnot, hc⟩ := h.apart hw hk hf hne hmem
    exact h.data p hdata hnot hc fun hslot => hw.image.live_apart hk hf hfile (hin hslot ▸ hmem)

theorem refl (hw : WellFormed s) (hk : s.image.Live k) (hfile : (s.entry k).isDirectory = false) :
    Reworked s s k (s.image.chain k) where
  frame := .refl s
  root := rfl
  data _ _ _ _ _ := rfl
  fat _ _ hb := (if_neg hb).symm
  owns := hw.image.owns k hk
  fresh _ hb := .inl hb
  size := chain_length hw.geometry (hw.image.readable hk)
  name := rfl
  still := hfile

theorem further {u : Fs} (h : Reworked s t k c) (hframe : SameFrame t u) (hroot : u.root = t.root)
    (hdata : ∀ p, s.image.IsData (p / s.bs) → p / s.bs ∉ c → ¬ (320 * k ≤ p ∧ p < 320 * k + 320) →
      u.data p = t.data p) (hfat : ∀ b < s.blockCount, u.fat b = t.fat b)
    (hlen : (u.entry k).len = (t.entry k).len) (hstart : (u.entry k).start = (t.entry k).start)
    (hname : (u.entry k).name = (t.entry k).name) (hdir : (u.entry k).isDirectory = (t.entry k).isDirectory) :
    Reworked s u k c where
  frame := h.frame.trans hframe
  root := hroot.trans h.root
  data p hp hold hc hslot := (hdata p hp hc hslot).trans (h.data p hp hold hc hslot)
  fat b hb hc := (hfat b hb).trans (h.fat b hb hc)
  owns := h.owns.congr hstart (fun b hb => hfat b (h.isData hb).2) fun b hb => hframe.isData.mpr (h.owns.data b hb)
  fresh := h.fresh
  size := hlen ▸ h.size
  name := hname.trans h.name
  still := hdir.trans h.still

end Reworked

/-- The run of zeros that cuts the file stays behind its new end, or meets nothing but zeros. -/
def Driver.CutsOwn (s : Fs) (k size : ℕ) : Prop := ∀ p, s.Clears k size p →
  s.data p = 0 ∨ ∃ i, size ≤ i ∧ i < (s.image.chain k).length * s.bs ∧ p = s.place k i

def Driver.SizesRight (s : Fs) (k size : ℕ) : Prop :=
  s.blocksFor size ≤ (s.image.chain k).length ∨ (s.image.chain k).length = 1

section Sized
variable {s : Fs} {k size : ℕ}

theorem file_takes (hw : WellFormed s) (hk : s.image.Live k) (hfile : (s.entry k).isDirectory = false) :
    s.Takes k :=
  Live.takes hw hk (hw.image.ne_root_of_file hfile)

theorem file_start (hw : WellFormed s) (hk : s.image.Live k) (hfile : (s.entry k).isDirectory = false) :
    (s.entry k).start ≠ s.superblock.startBlock := live_start hw hk (hw.image.ne_root_of_file hfile)

theorem Reworked.stored {t : Fs} {c : List ℕ} (h : Reworked s t k c) (hw : WellFormed s) (hk : s.image.Live k)
    (hfile : (s.entry k).isDirectory = false) {e : DirEntry} (hlen : e.len = (t.entry k).len)
    (hstart : e.start = (t.entry k).start) (hname : e.name = (t.entry k).name) (hdir : e.isDirectory = false)
    (hother : e.start ≠ s.superblock.startBlock) : Reworked s (t.storeEntry e (320 * k)) k c := by
  have hg := h.frame.geometry hw.geometry
  have htakes := h.frame.takes (file_takes hw hk hfile)
  have hentry : (t.storeEntry e (320 * k)).entry k = e := (stored_entry hg htakes k).trans (if_pos rfl)
  refine h.further (.storeEntry t e _) (stored_root hg ?_) (fun p _ _ hp => stored_data hg htakes e hp)
    (fun b hb => storeEntry_fat hg htakes.slot e (h.frame.blockCount ▸ hb)) ?_ ?_ ?_ ?_
  · rwa [h.frame.superblock]
  · rw [hentry, hlen]
  · rw [hentry, hstart]
  · rw [hentry, hname]
  · rw [hentry, hdir, h.still]

theorem resized_root_eq (hw : WellFormed s) (hk : s.image.Live k) (hfile : (s.entry k).isDirectory = false) :
    (s.resized (s.entry k) (320 * k) size).root = s.root := by
  have hg := hw.geometry
  have hread : s.image.Readable (s.entry k) := hw.image.readable hk
  rw [Driver.resized]
  split_ifs with hsame
  · rfl
  · have hframe := SameFrame.reblocked s (s.entry k) size
    rw [stored_root (hframe.geometry hg) (by rw [hframe.superblock]; exact file_start hw hk hfile)]
    rcases Nat.lt_or_ge size (s.entry k).len with hlt | hge
    · rw [(reblocked_shrunk hg hread hlt).root, Driver.zeroTail]
      split_ifs
      · rfl
      · exact pokes_root _ _
    · exact (reblocked_grown hg hread (lt_of_le_of_ne hge hsame)).root

theorem resized_reworked (hw : WellFormed s) (hk : s.image.Live k) (hfile : (s.entry k).isDirectory = false)
    (hsize : size < 2 ^ 64) (hroom : ¬ s.TooLarge (s.entry k) size) (hright : s.SizesRight k size)
    (hcuts : s.CutsOwn k size) :
    Reworked s (s.resized (s.entry k) (320 * k) size) k (s.newChain (s.entry k) size) := by
  have hg := hw.geometry
  have hread : s.image.Readable (s.entry k) := hw.image.readable hk
  have hr := hw.image.ne_root_of_file hfile
  have hslot := hw.image.live_data hk
  have hfree : ∀ f ∈ s.freeList, s.image.IsData f := fun f hf => hw.free_data hf
  have hentry := resized_entry hg hslot size
  refine ⟨.resized s _ _ size, resized_root_eq hw hk hfile, fun p hp hold _ hslot => ?_, fun b hb hc => ?_,
    hentry ▸ resized_owns hg hfree hread hslot size, fun b => newChain_fresh, ?_, ?_, ?_⟩
  · rw [resized_data hw hk hr hp hslot]
    split_ifs with hclears
    · rcases hcuts p hclears with hzero | ⟨i, -, hi, rfl⟩
      · exact hzero.symm
      · exact absurd (place_block hg hi).1 hold
    · rfl
  · by_cases hsame : (s.entry k).len = size
    · rw [Driver.resized, if_pos hsame]
      rw [← hsame, newChain_self hg hread] at hc
      exact (if_neg hc).symm
    · rw [resized_fat hg hslot hsame hb]
      split_ifs with hold
      · exact reblocked_fat_freed hg hread hold hc
      · exact reblocked_fat_other hg hread hb hold hc
  · rw [hentry, DirEntry.setLength_len, Nat.mod_eq_of_lt hsize]
    exact newChain_count hroom hright
  · rw [hentry]
    rfl
  · rw [hentry]
    exact hfile

theorem Reworked.off_slot {t : Fs} {c : List ℕ} (h : Reworked s t k c) (hw : WellFormed s) (hk : s.image.Live k)
    (hfile : (s.entry k).isDirectory = false) {p : ℕ} (hp : p / s.bs ∈ c) : ¬ (320 * k ≤ p ∧ p < 320 * k + 320) := by
  have hg := hw.geometry
  have hrange := slot_range hg k
  intro hin
  have hdiv : p / s.bs = k / s.image.epb := by
    rw [Nat.div_eq_iff hg.bs_pos]
    omega
  obtain ⟨q, hq, hqd, hmem⟩ := hw.image.live_mem hk
  have hblock : k / s.image.epb ∈ s.image.chain q := hw.image.slot_mem hq hmem
  exact (h.apart hw hk hq (directory_ne hfile hqd) hblock).2 (hdiv ▸ hp)

theorem Reworked.readable {t : Fs} {c : List ℕ} (h : Reworked s t k c) (hs : Sound s) (hk : s.image.Live k)
    (hfile : (s.entry k).isDirectory = false) : Geometry t ∧ t.image.Readable (t.entry k) := by
  have hsound := h.sound hs hk hfile
  have hlive := ((h.recut hs.wf hk hfile).live_iff hs.wf.image hs.tidy k).mpr hk
  exact ⟨hsound.wf.geometry, hsound.wf.image.readable hlive⟩

theorem Reworked.chain {t : Fs} {c : List ℕ} (h : Reworked s t k c) : t.image.chain k = c := h.owns.chainOf_eq

theorem resized_fills (hs : Sound s) (hk : s.image.Live k) (hfile : (s.entry k).isDirectory = false)
    (hsize : size < 2 ^ 64) (hroom : ¬ s.TooLarge (s.entry k) size) (hright : s.SizesRight k size)
    (hcuts : s.CutsOwn k size) {t : Fs} (ht : s.resized (s.entry k) (320 * k) size = t) :
    ∃ fill : List UInt8, fill.length = size - (s.content (s.entry k)).length ∧
      t.content (t.entry k) = (s.content (s.entry k) ++ fill).take size := by
  have hw := hs.wf
  have hg := hw.geometry
  have hread : s.image.Readable (s.entry k) := hw.image.readable hk
  have hrework := resized_reworked hw hk hfile hsize hroom hright hcuts
  rw [ht] at hrework
  obtain ⟨hgt, hreadt⟩ := hrework.readable hs hk hfile
  have hlent : (t.entry k).len = size := by
    rw [← ht, resized_entry hg (hw.image.live_data hk), DirEntry.setLength_len, Nat.mod_eq_of_lt hsize]
  apply take_fill
  · rw [content_length hgt hreadt, hlent]
  · intro i hi
    rw [content_length hg hread, lt_min_iff] at hi
    have hold : i / s.bs < (s.image.chain k).length := (Nat.div_lt_iff_lt_mul hg.bs_pos).mpr
      (hi.1.trans_le (len_le_chain hg hread))
    have hnew : i / s.bs < (s.newChain (s.entry k) size).length := by
      have hle := len_le_chain hgt hreadt
      rw [hlent, show t.image.chainOf (t.entry k) = _ from hrework.chain, hrework.frame.bs] at hle
      exact (Nat.div_lt_iff_lt_mul hg.bs_pos).mpr (hi.2.trans_le hle)
    have hin : i < (s.image.chain k).length * s.bs := (Nat.div_lt_iff_lt_mul hg.bs_pos).mp hold
    have hplace := place_prefix hrework.frame hrework.chain hnew hold (newChain_getElem hnew hold)
    have hblock := (place_block hg hin).1
    have hdata := (hw.image.owns k hk).data _ hblock
    rw [content_byte hg hread hi.1, content_byte hgt hreadt (by omega), hplace, ← ht,
      resized_data hw hk (hw.image.ne_root_of_file hfile) hdata fun hslot => ?_]
    · split_ifs with hclears
      · rcases hcuts _ hclears with hzero | ⟨j, hj, hjlt, he⟩
        · rw [hzero]
        · have := place_inj hg (hw.image.owns k hk).nodup hin hjlt he
          omega
      · rfl
    · exact (Reworked.refl hw hk hfile).off_slot hw hk hfile hblock hslot

end Sized

section Written
variable {s : Fs} {k offset : ℕ} {buffer : List UInt8}

theorem cutsOwn_grown {size : ℕ} (hle : (s.entry k).len ≤ size) : s.CutsOwn k size := fun _ h =>
  absurd h.1 (not_lt.mpr hle)

theorem Reworked.poked {u : Fs} {l : List ℕ} (buffer : List UInt8) (h : Reworked s u k l) (hw : WellFormed s)
    (hk : s.image.Live k) (hfile : (s.entry k).isDirectory = false) (hin : offset / s.bs < l.length) :
    Reworked s (u.pokes (spans s.bs (l.drop (offset / s.bs)) (offset % s.bs) buffer)) k l ∧
    (u.pokes (spans s.bs (l.drop (offset / s.bs)) (offset % s.bs) buffer)).entry k = u.entry k ∧
    (u.pokes (spans s.bs (l.drop (offset / s.bs)) (offset % s.bs) buffer)).data =
      patches u.data (spans s.bs (l.drop (offset / s.bs)) (offset % s.bs) buffer) := by
  have hg := hw.geometry
  have hgu := h.frame.geometry hg
  have hrange := spans_range hgu h.owns.data (offset / s.bs) offset hin buffer
  rw [show u.bs = s.bs from h.frame.bs] at hrange
  have hpatch := pokes_data u (spans s.bs (l.drop (offset / s.bs)) (offset % s.bs) buffer) fun p hp => by
    have h₁ := (hrange p hp).2
    have h₂ := hgu.offset
    omega
  have hoff : ∀ p, p / s.bs ∉ l →
      (u.pokes (spans s.bs (l.drop (offset / s.bs)) (offset % s.bs) buffer)).data p = u.data p := fun p hp => by
    rw [hpatch, patches_spans_off _ _ hg.bs_pos _ _ _ hin hp]
  have hentry : (u.pokes (spans s.bs (l.drop (offset / s.bs)) (offset % s.bs) buffer)).entry k = u.entry k := by
    rw [entry_eq, entry_eq, (slice_eq_iff _ _ (320 * k) 320).mpr fun q hq hq' => hoff q fun hmem => ?_]
    exact h.off_slot hw hk hfile hmem ⟨hq, hq'⟩
  refine ⟨h.further (.pokes _ _) (pokes_root _ _) (fun p _ hp _ => hoff p hp) (fun b hb => ?_) ?_ ?_ ?_ ?_,
    hentry, hpatch⟩
  · exact pokes_fat hgu _ (by rw [h.frame.bs]; exact hrange) (h.frame.blockCount ▸ hb)
  all_goals rw [hentry]

theorem written_reworked (hw : WellFormed s) (hk : s.image.Live k) (hfile : (s.entry k).isDirectory = false)
    (hsize : max (s.entry k).len (offset + buffer.length) < 2 ^ 64)
    (hroom : ¬ s.TooLarge (s.entry k) (max (s.entry k).len (offset + buffer.length)))
    (hright : s.SizesRight k (max (s.entry k).len (offset + buffer.length)))
    (hin : offset / s.bs < (s.newChain (s.entry k) (max (s.entry k).len (offset + buffer.length))).length) :
    Reworked s (s.written (s.entry k) (320 * k) buffer offset) k
      (s.newChain (s.entry k) (max (s.entry k).len (offset + buffer.length))) := by
  have hsized := resized_reworked hw hk hfile hsize hroom hright (cutsOwn_grown (le_max_left _ _))
  have hentry :=
    resized_entry hw.geometry (hw.image.live_data hk) (max (s.entry k).len (offset + buffer.length))
  obtain ⟨hpoked, hsame, -⟩ := hsized.poked buffer hw hk hfile hin
  rw [hentry] at hsame
  rw [Driver.written]
  exact hpoked.stored hw hk hfile (by rw [hsame]) (by rw [hsame]) (by rw [hsame]) hfile (file_start hw hk hfile)

theorem written_fills (hs : Sound s) (hk : s.image.Live k) (hfile : (s.entry k).isDirectory = false)
    (hsize : max (s.entry k).len (offset + buffer.length) < 2 ^ 64)
    (hroom : ¬ s.TooLarge (s.entry k) (max (s.entry k).len (offset + buffer.length)))
    (hright : s.SizesRight k (max (s.entry k).len (offset + buffer.length)))
    (hin : offset / s.bs < (s.newChain (s.entry k) (max (s.entry k).len (offset + buffer.length))).length) {t : Fs}
    (ht : s.written (s.entry k) (320 * k) buffer offset = t) :
    ∃ fill : List UInt8, fill.length = offset - (s.content (s.entry k)).length ∧
      t.content (t.entry k) = overlay (s.content (s.entry k) ++ fill) offset buffer := by
  have hw := hs.wf
  have hg := hw.geometry
  have hread : s.image.Readable (s.entry k) := hw.image.readable hk
  have hlen := content_length hg hread
  have hcuts := cutsOwn_grown (le_max_left (s.entry k).len (offset + buffer.length))
  have hsized := resized_reworked hw hk hfile hsize hroom hright hcuts
  obtain ⟨fill, -, hcontent⟩ := resized_fills hs hk hfile hsize hroom hright hcuts rfl
  have hentry := resized_entry hg (hw.image.live_data hk) (max (s.entry k).len (offset + buffer.length))
  have hrework := written_reworked hw hk hfile hsize hroom hright hin
  obtain ⟨hpoked, hsame, hpatch⟩ := hsized.poked buffer hw hk hfile hin
  obtain ⟨hgu, hreadu⟩ := hsized.readable hs hk hfile
  rw [ht] at hrework
  obtain ⟨hgt, hreadt⟩ := hrework.readable hs hk hfile
  have hgp := hpoked.frame.geometry hg
  have htakes := hpoked.frame.takes (file_takes hw hk hfile)
  have hlenu : ∀ n, ((s.entry k).setLength n).len = n % 2 ^ 64 := DirEntry.setLength_len _
  have hentryt : t.entry k = (s.entry k).setLength (max (s.entry k).len (offset + buffer.length)) := by
    rw [← ht, Driver.written]
    exact (stored_entry hgp htakes k).trans (if_pos rfl)
  have hchaint := hrework.chain
  have hcell :
      ∀ p, p / s.bs ∈ s.newChain (s.entry k) (max (s.entry k).len (offset + buffer.length)) → t.data p =
      patches (s.resized (s.entry k) (320 * k) (max (s.entry k).len (offset + buffer.length))).data
        (spans s.bs ((s.newChain (s.entry k) (max (s.entry k).len (offset + buffer.length))).drop (offset / s.bs))
          (offset % s.bs) buffer) p := fun p hp => by
    rw [← hpatch, ← ht, Driver.written]
    exact stored_data hgp htakes _ (hrework.off_slot hw hk hfile hp)
  generalize s.newChain (s.entry k) (max (s.entry k).len (offset + buffer.length)) = l at *
  generalize s.resized (s.entry k) (320 * k) (max (s.entry k).len (offset + buffer.length)) = u at *
  rw [← hentryt] at hentry
  have hbst : t.bs = s.bs := hrework.frame.bs
  have hlent : (t.entry k).len = max (s.entry k).len (offset + buffer.length) := by
    rw [hentryt, hlenu, Nat.mod_eq_of_lt hsize]
  have hfits : max (s.entry k).len (offset + buffer.length) ≤ l.length * s.bs := by
    have hle := len_le_chain hgt hreadt
    rwa [hlent, show t.image.chainOf (t.entry k) = l from hchaint, hbst] at hle
  have hplace : t.place k = u.place k := by
    funext i
    rw [Driver.place, Driver.place, hchaint, hsized.chain, hbst, hsized.frame.bs]
  -- the bytes of the file once the buffer is laid over its blocks
  have hbyte : ∀ i < max (s.entry k).len (offset + buffer.length), (t.content (t.entry k))[i]? =
      some (if offset ≤ i ∧ i < offset + buffer.length then buffer.getD (i - offset) 0 else u.data (u.place k i)) := by
    intro i hi
    have hin' : i < (t.image.chain k).length * t.bs := by
      rw [hchaint, hbst]
      omega
    have hblock := (place_block hgt hin').1
    rw [hchaint, hbst] at hblock
    have hat := patches_spans_at u.data s.bs hg.bs_pos l hrework.owns.nodup offset buffer hin
      (by omega : offset + buffer.length ≤ l.length * s.bs) (by omega : i < l.length * s.bs)
    have hu : u.place k i = l.getD (i / s.bs) 0 * s.bs + i % s.bs := by
      rw [Driver.place, hsized.chain, hsized.frame.bs]
    rw [content_byte hgt hreadt (by omega), hcell _ hblock, hplace, hu, hat]
  apply overlay_fill
  · rw [content_length hgt hreadt, hlent, hlen]
  · intro i hi
    rw [hbyte _ (by omega), if_pos (by omega), Nat.add_sub_cancel_left, List.getD_eq_getElem?_getD,
      List.getElem?_eq_getElem hi, Option.getD_some]
  · intro i hi hnot
    rw [hlen] at hi
    have hold := congrArg (·[i]?) hcontent
    simp only [List.getElem?_take_of_lt (lt_max_of_lt_left hi : i < max (s.entry k).len
      (offset + buffer.length)),
      List.getElem?_append_left (hlen.symm ▸ hi : i < (s.content (s.entry k)).length)] at hold
    rw [hbyte i (lt_max_of_lt_left hi), if_neg hnot, ← hold,
      content_byte hgu hreadu (by rw [hentry, hlent]; omega)]

end Written

end Thorn.FatDriver

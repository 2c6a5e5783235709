import Thorn.FatRead
import Thorn.FatSample

set_option autoImplicit false

namespace Thorn.FatDriver
open ByteStore Paths FatTypes FatOperations FatImage LinkedChain

section Buffer
variable {s : Fs} {e : DirEntry}

theorem content_length (hg : Geometry s) (h : s.image.Readable e) : (s.content e).length = e.len := by
  have hle : e.len ≤ (s.image.chainOf e).length * s.bs := by
    rw [← updiv_le_iff _ _ _ hg.bs_pos, h.size, Image.blocksFor, hg.image_bs]
    omega
  rw [Driver.content, List.length_take, gather_length]
  omega

/-- Only an unaligned start that runs over its block leaves the chain's order. -/
theorem readBuffer_eq (hg : Geometry s) (l : List ℕ) (size offset : ℕ) (hj : offset / s.bs < l.length) :
    s.readBuffer l size offset =
      if offset % s.bs + size ≤ s.bs ∨ offset % s.bs = 0 then ((gather s.data s.bs l).drop offset).take size
      else slice s.data (l[offset / s.bs] * s.bs + offset % s.bs) (s.bs - offset % s.bs) ++
        (s.block (l[offset / s.bs] + 1) ++ gather s.data s.bs (l.drop (offset / s.bs + 1))).take
          (size - (s.bs - offset % s.bs)) := by
  rw [gather_from _ _ l offset hg.bs_pos hj]
  have hr := Nat.mod_lt offset hg.bs_pos
  have hget : l.getD (offset / s.bs) 0 = l[offset / s.bs] := List.getD_eq_getElem _ _ hj
  simp only [Driver.readBuffer, hget]
  by_cases h₁ : offset % s.bs + size ≤ s.bs
  · rw [if_pos h₁, if_pos (.inl h₁), List.take_append_of_le_length (by rw [slice_length]; omega),
      slice_take _ _ _ _ (by omega)]
  · by_cases h₂ : offset % s.bs = 0
    · rw [if_neg h₁, if_neg (by omega), if_pos (.inr h₂), h₂]
      rfl
    · rw [if_neg h₁, if_pos (by omega), if_neg (by tauto)]

theorem offset_block (hg : Geometry s) (h : s.image.Readable e) {offset : ℕ} (ho : offset < e.len) :
    offset / s.bs < (s.image.chainOf e).length := by
  have hle : e.len ≤ (s.image.chainOf e).length * s.bs := by
    rw [← updiv_le_iff _ _ _ hg.bs_pos, h.size, Image.blocksFor, hg.image_bs]
    omega
  exact (Nat.div_lt_iff_lt_mul hg.bs_pos).mpr (by omega)

/-- The chain holds more than the file exactly when the length is no multiple of the block size. -/
theorem chain_full_iff (hg : Geometry s) (h : s.image.Readable e) (h0 : 0 < e.len) :
    (s.image.chainOf e).length * s.bs ≤ e.len ↔ s.bs ∣ e.len := by
  have hbs := hg.bs_pos
  have hu := updiv_pos e.len s.bs hbs h0
  have hs : (s.image.chainOf e).length = updiv e.len s.bs := by
    rw [h.size, Image.blocksFor, hg.image_bs]
    omega
  have hd := Nat.div_add_mod' e.len s.bs
  have hm := Nat.mod_lt e.len hbs
  rw [hs, updiv]
  constructor
  · intro hle
    by_contra hnd
    rw [if_pos (by rwa [ne_eq, ← Nat.dvd_iff_mod_eq_zero]), Nat.add_mul, Nat.one_mul] at hle
    omega
  · intro hdvd
    rw [if_neg (by simpa [ne_eq, ← Nat.dvd_iff_mod_eq_zero] using hdvd), Nat.add_zero]
    omega

/-- The reads that return what they should: past the end; inside the file, and
unless one block or an aligned start is enough, with the physically next block
followed by the chain agreeing with the chain alone; or from an aligned start
over the end of a file that fills its last block. -/
def Driver.ReadsTrue (s : Fs) (e : DirEntry) (size offset : ℕ) : Prop :=
  let l := s.image.chainOf e
  let j := offset / s.bs
  let r := offset % s.bs
  let rest := gather s.data s.bs (l.drop (j + 1))
  let left := size - (s.bs - r)
  e.len ≤ offset ∨
  (size ≤ e.len - offset ∧ (r + size ≤ s.bs ∨ r = 0 ∨
    (s.block (l.getD j 0 + 1) ++ rest).take left = rest.take left)) ∨
  (r = 0 ∧ s.bs < size ∧ s.bs ∣ e.len)

theorem readBuffer_true_iff (hg : Geometry s) (h : s.image.Readable e) {size offset : ℕ}
    (ho : offset < e.len) :
    s.readBuffer (s.image.chainOf e) size offset =
        ((s.content e).drop offset).take (min size (e.len - offset)) ↔ s.ReadsTrue e size offset := by
  have hj := offset_block hg h ho
  have hfull := chain_full_iff hg h (by omega)
  have hr := Nat.mod_lt offset hg.bs_pos
  have hB := gather_length s.data s.bs (s.image.chainOf e)
  have hle : e.len ≤ (s.image.chainOf e).length * s.bs := by
    rw [← updiv_le_iff _ _ _ hg.bs_pos, h.size, Image.blocksFor, hg.image_bs]
    omega
  have hfrom := gather_from s.data s.bs _ offset hg.bs_pos hj
  have hget : (s.image.chainOf e).getD (offset / s.bs) 0 = (s.image.chainOf e)[offset / s.bs] :=
    List.getD_eq_getElem _ _ hj
  have hwant : ((s.content e).drop offset).take (min size (e.len - offset)) =
      ((gather s.data s.bs (s.image.chainOf e)).drop offset).take (min size (e.len - offset)) := by
    rw [Driver.content, List.drop_take, List.take_take, Nat.min_eq_left (Nat.min_le_right _ _)]
  rw [readBuffer_eq hg _ _ _ hj, hwant]
  simp only [Driver.ReadsTrue, hget]
  generalize gather s.data s.bs (s.image.chainOf e) = B at *
  have hlen : (B.drop offset).length = (s.image.chainOf e).length * s.bs - offset := by
    rw [List.length_drop, hB]
  have hend : offset + (s.bs - offset % s.bs) ≤ (s.image.chainOf e).length * s.bs := by
    have hd := Nat.div_add_mod' offset s.bs
    have hm : (offset / s.bs + 1) * s.bs ≤ (s.image.chainOf e).length * s.bs := Nat.mul_le_mul_right _ hj
    rw [Nat.add_mul, Nat.one_mul] at hm
    omega
  by_cases hone : offset % s.bs + size ≤ s.bs ∨ offset % s.bs = 0
  · rw [if_pos hone, List.take_eq_take_iff, hlen, ← hfull]
    constructor
    · intro heq
      by_cases hs : size ≤ e.len - offset
      · exact .inr (.inl ⟨hs, hone.elim .inl fun h => .inr (.inl h)⟩)
      · right
        right
        omega
    · rintro (h₁ | ⟨h₁, -⟩ | ⟨h₁, h₂, h₃⟩) <;> omega
  · rw [if_neg hone, hfrom]
    have hrest : gather s.data s.bs ((s.image.chainOf e).drop (offset / s.bs + 1)) =
        (B.drop offset).drop (s.bs - offset % s.bs) := by
      rw [hfrom, List.drop_left' (slice_length _ _ _)]
    have hhead := slice_length s.data ((s.image.chainOf e)[offset / s.bs] * s.bs + offset % s.bs)
      (s.bs - offset % s.bs)
    have hD := congrArg List.length hrest
    rw [List.length_drop, hlen] at hD
    generalize slice s.data ((s.image.chainOf e)[offset / s.bs] * s.bs + offset % s.bs)
      (s.bs - offset % s.bs) = head at *
    generalize gather s.data s.bs ((s.image.chainOf e).drop (offset / s.bs + 1)) = D at *
    have hnot : ¬ (offset % s.bs + size ≤ s.bs) ∧ offset % s.bs ≠ 0 := by tauto
    by_cases hs : size ≤ e.len - offset
    · have htake : (head ++ D).take size = head ++ D.take (size - (s.bs - offset % s.bs)) := by
        rw [List.take_append, hhead, List.take_of_length_le (by omega)]
      rw [Nat.min_eq_left hs, htake, List.append_cancel_left_eq]
      constructor
      · exact fun h => .inr (.inl ⟨hs, .inr (.inr h)⟩)
      · rintro (h₁ | ⟨-, h₁ | h₁ | h₁⟩ | ⟨h₁, -⟩)
        · omega
        · omega
        · omega
        · exact h₁
        · omega
    · constructor
      · intro heq
        have hl := congrArg List.length heq
        simp only [List.length_append, List.length_take, block_length, hhead, hD] at hl
        omega
      · rintro (h₁ | ⟨h₁, -⟩ | ⟨h₁, -⟩) <;> omega

theorem readBuffer_length (hg : Geometry s) (l : List ℕ) (size offset : ℕ) (hj : offset / s.bs < l.length) :
    (s.readBuffer l size offset).length ≤ size := by
  rw [readBuffer_eq hg l size offset hj]
  split_ifs with h
  · exact List.length_take_le _ _
  · have hr := Nat.mod_lt offset hg.bs_pos
    rw [List.length_append, slice_length]
    have := List.length_take_le (size - (s.bs - offset % s.bs))
      (s.block (l[offset / s.bs] + 1) ++ gather s.data s.bs (l.drop (offset / s.bs + 1)))
    omega

theorem run_read (hw : WellFormed s) {path : Str} {k : ℕ}
    (hwalk : s.image.WalkReadable s.image.rootSlot (pathNames path)) (hk : s.lookup path = .ok k)
    (h : s.image.Readable (s.entry k)) (hd : (s.entry k).isDirectory = false)
    (size offset : ℕ) (hsize : size < 2 ^ 31) (hoff : offset < 2 ^ 63) :
    read path size offset s = if (s.entry k).len ≤ offset then some ((0, []), s.load) else
      some ((((s.readBuffer (s.image.chainOf (s.entry k)) size offset).length : ℤ),
        s.readBuffer (s.image.chainOf (s.entry k)) size offset), s.load.storeEntry (s.entry k) (320 * k)) := by
  have hg := hw.geometry
  have hgl := (SameFrame.load s).geometry hg
  have hto : toSize (offset : ℤ) = offset := toSize_natCast offset (by omega)
  unfold FatOperations.read
  simp only [run_bind, run_get, Option.bind_some, run_find hw path hwalk, hk, Driver.found, run_ite,
    run_pure, lt_self_iff_false, ite_false, hd, and_false, Bool.false_eq_true, hto]
  by_cases hle : (s.entry k).len ≤ offset
  · rw [if_pos hle, if_pos hle]
  · have hj := offset_block hg h (Nat.lt_of_not_le hle)
    obtain ⟨b, hb, hc⟩ := h.owns.start
    have hskip := run_readSkipLoop (s := s.load) hgl hc h.owns.data offset (offset + 1) (by omega) hj
    have hdata := run_readData (s := s.load) hgl h.owns size offset hj hsize
    have hblock := (h.owns.data _ (List.getElem_mem hj)).1
    have hlen := readBuffer_length hg (s.image.chainOf (s.entry k)) size offset hj
    have hbuf : s.load.readBuffer (s.image.chainOf (s.entry k)) size offset =
        s.readBuffer (s.image.chainOf (s.entry k)) size offset := rfl
    rw [if_neg hle, if_neg hle, hb, Int.toNat_natCast]
    change ((readSkipLoop s.load.bs (offset + 1) offset b s.load).bind _) = _
    have hcheck := run_checkBlock ((s.image.chainOf (s.entry k))[offset / s.bs] : ℕ) (by omega) s.load
    have hint : toInt32 ((s.readBuffer (s.image.chainOf (s.entry k)) size offset).length : ℕ) =
        (s.readBuffer (s.image.chainOf (s.entry k)) size offset).length :=
      toInt32_of_range _ (by omega) (by omega)
    rw [hskip, Option.bind_some]
    change ((checkBlock ((s.image.chainOf (s.entry k))[offset / s.bs] : ℕ) s.load).bind _) = _
    rw [hcheck, Option.bind_some]
    change ((readData s.load.bs size _ _ s.load).bind _) = _
    rw [hdata, Option.bind_some]
    simp only [run_ite, lt_self_iff_false, ite_false, run_bind, run_writeEntry, Option.bind_some,
      run_pure, hbuf, hint]

end Buffer

/-- `read` returns as many bytes as are asked for and there, and they are those
`readFile` has at the offset. -/
def ReadsContent (s : Fs) (path : Str) (found : FindResult) (t : Fs) (size : ℕ) (offset : ℤ) : Prop :=
  ∃ content t' t'', readFile found.entry t = some ((0, content), t') ∧
    read path size offset s = some ((((min size (found.entry.len - offset.toNat) : ℕ) : ℤ),
      (content.drop offset.toNat).take (min size (found.entry.len - offset.toNat))), t'')

theorem reads_content_iff {s : Fs} (hw : WellFormed s) {path : Str} (hp : NoDots path) {k : ℕ}
    (hk : s.lookup path = .ok k) (hlive : s.image.Live k) (hfile : (s.entry k).isFile)
    {size offset : ℕ} (hsize : size < 2 ^ 31) (hoff : offset < 2 ^ 63) :
    ReadsContent s path ⟨0, s.entry k, 320 * k, []⟩ s.load size offset ↔
      s.ReadsTrue (s.entry k) size offset := by
  have hr : s.image.Readable (s.entry k) := hw.image.readable hlive
  have hd : (s.entry k).isDirectory = false := by
    have hcode : (s.entry k).type = FileType.File.code := by simpa [DirEntry.isFile] using hfile
    simp [DirEntry.isDirectory, hcode, FileType.code]
  have hwalk := hw.image.walkReadable .root (hw.image.avoidsCopies .root hp.1 hp.2)
  have hread := run_read hw hwalk hk hr hd size offset hsize hoff
  have hcontent := run_readFile (s := s.load) ((SameFrame.load s).geometry hw.geometry) (s.entry k) hr
  unfold ReadsContent
  simp only [hread, hcontent, Int.toNat_natCast]
  by_cases hle : (s.entry k).len ≤ offset
  · have hz : (s.entry k).len - offset = 0 := by omega
    simp only [if_pos hle, hz, Nat.min_zero, List.take_zero]
    exact ⟨fun _ => .inl hle, fun _ => ⟨_, _, _, rfl, rfl⟩⟩
  · have hlt := Nat.lt_of_not_le hle
    rw [← readBuffer_true_iff hw.geometry hr hlt, if_neg hle]
    have hlen : ((s.content (s.entry k)).drop offset).length = (s.entry k).len - offset := by
      rw [List.length_drop, content_length hw.geometry hr]
    constructor
    · rintro ⟨content, t', t'', h₁, h₂⟩
      simp only [Option.some.injEq, Prod.mk.injEq] at h₁ h₂
      rw [h₂.1.2, ← h₁.1.2]
      rfl
    · intro heq
      refine ⟨_, _, s.load.storeEntry (s.entry k) (320 * k), rfl, ?_⟩
      rw [heq, List.length_take, hlen, Nat.min_assoc, Nat.min_self]
      rfl

/-- `read` returns the file's content exactly in the cases of `ReadsTrue`. -/
theorem read_content_iff (s : Fs) (hw : WellFormed s) (path : Str) (hp : NoDots path)
    (found : FindResult) (t : Fs) (hf : find path false s = some (found, t)) (h0 : 0 ≤ found.status)
    (hfile : found.entry.isFile) (size : ℕ) (hsize : size < 2 ^ 31) (offset : ℤ) (ho : 0 ≤ offset)
    (hoff : offset < 2 ^ 63) :
    ReadsContent s path found t size offset ↔ s.ReadsTrue found.entry size offset.toNat := by
  obtain ⟨rfl, k, hk, hlive, rfl⟩ := find_live hw hp hf h0
  obtain ⟨offset, rfl⟩ := Int.eq_ofNat_of_zero_le ho
  exact reads_content_iff hw hp hk hlive hfile hsize (by omega)

section Sample
open FatSample

/-- The first block of `f`, read as a whole. -/
theorem read_content_f : ReadsContent disk pathF ⟨0, disk.entry 6, 320 * 6, []⟩ disk.load 640 0 := by
  refine (read_content_iff disk disk_wellFormed pathF pathF_noDots _ _ (disk_find pathF_noDots disk_lookup_f)
    le_rfl ?_ 640 (by omega) 0 le_rfl (by omega)).mpr (.inr (.inl ⟨?_, .inl ?_⟩))
  · rw [disk_entry_f]
    decide
  · rw [disk_entry_f]
    decide
  · exact le_rfl

/-- From offset 100 on, 700 bytes of `f` should come from blocks 4 and 6; the
last 160 come from block 5, which belongs to `g`. -/
theorem read_content_strays : WellFormed disk ∧ NoDots pathF ∧
    find pathF false disk = some (⟨0, disk.entry 6, 320 * 6, []⟩, disk.load) ∧
    (disk.entry 6).isFile ∧
    ¬ ReadsContent disk pathF ⟨0, disk.entry 6, 320 * 6, []⟩ disk.load 700 100 := by
  have hfile : (disk.entry 6).isFile := by
    rw [disk_entry_f]
    decide
  refine ⟨disk_wellFormed, pathF_noDots, disk_find pathF_noDots disk_lookup_f, hfile, ?_⟩
  have hiff := reads_content_iff disk_wellFormed pathF_noDots disk_lookup_f
    ((disk_live 6).mpr (by decide)) hfile (show 700 < 2 ^ 31 by omega) (show 100 < 2 ^ 63 by omega)
  refine fun h => ?_
  have htrue := hiff.mp h
  have hlen : (disk.entry 6).len = 1280 := by
    rw [disk_entry_f]
    decide
  have hbs : disk.bs = 640 := disk_frame.bs
  have hch : disk.image.chainOf (disk.entry 6) = [4, 6] := disk_chain_f
  simp only [Driver.ReadsTrue, hlen, hbs, hch] at htrue
  rcases htrue with h₁ | ⟨-, h₁ | h₁ | h₁⟩ | ⟨h₁, -⟩
  · omega
  · omega
  · omega
  · -- byte 0 of block 5 is `g`'s, byte 0 of block 6 is `f`'s
    have h₅ : (disk.block 5)[0]? = some 1 := by rw [disk_block_head (by decide), data_one]
    have h₆ : (blockAt disk.data 640 6)[0]? = some 0 := by
      rw [← hbs]
      exact (disk_block_head (by decide)).trans (congrArg some (data_bytes _ (by omega)))
    have hhead := congrArg (fun l : List UInt8 => l[0]?) h₁
    have hl : ∀ b, 0 < (disk.block b).length := fun b => by
      rw [block_length, hbs]
      omega
    simp only [List.getElem?_take, List.getD_cons_zero, Nat.reduceDiv, Nat.reduceAdd, Nat.reduceMod,
      Nat.reduceSub, Nat.reduceLT, ite_true, List.drop_succ_cons, List.drop_zero, gather_cons,
      gather_nil, List.append_nil, List.getElem?_append_left (hl 5), h₅, h₆] at hhead
    cases hhead
  · omega

end Sample

end Thorn.FatDriver

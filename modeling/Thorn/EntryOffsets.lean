import Thorn.ChainWalks

set_option autoImplicit false

namespace Thorn.FatDriver
open ByteStore Paths FatTypes FatOperations FatImage LinkedChain

section Places
variable {s : Fs}

theorem transfer_room {x : ℕ} (hin : x * s.bs + s.bs ≤ s.partition.length)
    (hlength : s.partition.length < 2 ^ 32) (hoffset : s.partition.offset + s.partition.length ≤ 2 ^ 64) :
    s.partition.offset + mul32 x s.bs + s.bs ≤ 2 ^ 64 := by
  rw [mul32_natCast x s.bs (by omega)]
  omega

theorem chain_pos {b : ℕ} {l : List ℕ} (hc : Chain s.image.next s.image.Final b l) (hb : 0 < b) :
    ∀ x ∈ l, 0 < x := by
  apply hc.forall_mem hb
  intro x y hxy
  rw [Image.next] at hxy
  split_ifs at hxy with hpos
  have hy := Option.some.inj hxy
  omega

theorem peek_entryPlace (hdvd : sizeofDirEntry ∣ s.bs) (hbs : 0 < s.bs) {l : List ℕ}
    (hroom : ∀ x ∈ l, s.partition.offset + mul32 x s.bs + s.bs ≤ 2 ^ 64) (i : ℕ)
    (hi : i / (s.bs / sizeofDirEntry) < l.length) :
    s.peek (s.entryPlace l i) sizeofDirEntry = ((s.transfers l).drop (sizeofDirEntry * i)).take sizeofDirEntry := by
  have hepb : sizeofDirEntry * (s.bs / sizeofDirEntry) = s.bs := Nat.mul_div_cancel' hdvd
  have hE : 0 < s.bs / sizeofDirEntry := Nat.div_pos (Nat.le_of_dvd hbs hdvd) (by decide)
  rw [Driver.entryPlace, List.getD_eq_getElem _ _ hi]
  generalize s.bs / sizeofDirEntry = epb at *
  have hfar := hroom _ (List.getElem_mem hi)
  have hrem := Nat.mod_lt i hE
  have hinside : i % epb * sizeofDirEntry + sizeofDirEntry ≤ s.bs := by
    calc i % epb * sizeofDirEntry + sizeofDirEntry = (i % epb + 1) * sizeofDirEntry := by ring
      _ ≤ epb * sizeofDirEntry := Nat.mul_le_mul_right _ hrem
      _ = s.bs := by rw [Nat.mul_comm, hepb]
  have hpos : sizeofDirEntry * i = i / epb * s.bs + i % epb * sizeofDirEntry := by
    calc sizeofDirEntry * i = sizeofDirEntry * (epb * (i / epb) + i % epb) := by rw [Nat.div_add_mod]
      _ = i / epb * (sizeofDirEntry * epb) + i % epb * sizeofDirEntry := by ring
      _ = _ := by rw [hepb]
  rw [hpos, Driver.transfers, flatMap_slice (fun x : ℕ => peek_length _ _) l _ _ _ hi hinside, Driver.peek,
    Driver.peek, slice_drop_take _ _ _ _ _ hinside]
  generalize mul32 (l[i / epb] : ℕ) s.bs = block at hfar ⊢
  generalize i % epb * sizeofDirEntry = rem at hinside ⊢
  have hsize : sizeofDirEntry = 320 := rfl
  have hoff : (block + rem) % 2 ^ 64 = block + rem := Nat.mod_eq_of_lt (by omega)
  have haddr : (s.partition.offset + (block + rem)) % 2 ^ 64 = (s.partition.offset + block) % 2 ^ 64 + rem := by
    rw [Nat.mod_eq_of_lt (by omega), Nat.mod_eq_of_lt (by omega), Nat.add_assoc]
  rw [hoff, haddr]

end Places

/-- `readDir` reports where each entry is: the bytes that became entry `i` are
the bytes on the partition at the offset it gives. -/
theorem readDir_locates (s : Fs) (dir : DirEntry) (b : ℕ) (l : List ℕ) (hdvd : sizeofDirEntry ∣ s.bs)
    (hbs : 0 < s.bs) (hdir : dir.isDirectory) (hlen : 0 < dir.len) (hstart : dir.start = b) (hb : 0 < b)
    (hc : Chain s.image.next s.image.Final b l) (hsize : l.length = updiv dir.len s.bs)
    (hroom : ∀ x ∈ l, s.partition.offset + mul32 x s.bs + s.bs ≤ 2 ^ 64) :
    ∃ listing raw, readDir dir s = some (listing, s) ∧ readFile dir s = some ((0, raw), s) ∧
      listing.status = 0 ∧ listing.entries.length = dir.len / sizeofDirEntry ∧
      ∀ (i : ℕ) (hi : i < listing.entries.length),
        listing.entries[i].1 = .decode ((raw.drop (sizeofDirEntry * i)).take sizeofDirEntry) ∧
        s.peek listing.entries[i].2 sizeofDirEntry = (raw.drop (sizeofDirEntry * i)).take sizeofDirEntry := by
  obtain ⟨hfile, hread⟩ := run_readDir_entries hdvd hbs hdir hlen hstart hc (chain_pos hc hb) hsize
  refine ⟨_, _, hread, hfile, rfl, by rw [List.length_map, List.length_range], fun i hi => ?_⟩
  rw [List.length_map, List.length_range] at hi
  rw [List.getElem_map, List.getElem_range]
  refine ⟨rfl, ?_⟩
  have hE : 0 < s.bs / sizeofDirEntry := Nat.div_pos (Nat.le_of_dvd hbs hdvd) (by decide)
  have hlong : dir.len ≤ l.length * s.bs := (updiv_le_iff _ _ _ hbs).mp hsize.ge
  have hblock : i / (s.bs / sizeofDirEntry) < l.length := by
    rw [Nat.div_lt_iff_lt_mul hE, ← Nat.mul_div_assoc _ hdvd]
    exact lt_of_lt_of_le hi (Nat.div_le_div_right hlong)
  have hin : sizeofDirEntry * i + sizeofDirEntry ≤ dir.len := by
    rw [show sizeofDirEntry = 320 from rfl] at hi ⊢
    omega
  rw [List.drop_take, List.take_take, Nat.min_eq_left (by omega)]
  exact peek_entryPlace hdvd hbs hroom i hblock

section Sample
open FatSample

/-- The root of the small disk, with six entries in three blocks. -/
theorem readDir_locates_root :
    ∃ listing raw, readDir (item dotName .Directory 2 1920) disk = some (listing, disk) ∧
      readFile (item dotName .Directory 2 1920) disk = some ((0, raw), disk) ∧
      listing.status = 0 ∧ listing.entries.length = (item dotName .Directory 2 1920).len / sizeofDirEntry ∧
      ∀ (i : ℕ) (hi : i < listing.entries.length),
        listing.entries[i].1 = .decode ((raw.drop (sizeofDirEntry * i)).take sizeofDirEntry) ∧
        disk.peek listing.entries[i].2 sizeofDirEntry = (raw.drop (sizeofDirEntry * i)).take sizeofDirEntry := by
  have hg := disk_geometry
  refine readDir_locates disk (item dotName .Directory 2 1920) 2 [2, 3, 7] hg.block hg.bs_pos (by decide)
    (by decide)
    (by decide) (by decide) shortRoot_chain (by decide) fun x hx => ?_
  have hcount : x < disk.blockCount := by
    have hsmall : ∀ y ∈ [2, 3, 7], y < disk.blockCount := by decide
    exact hsmall x hx
  have hend := hg.offset
  exact transfer_room (hg.block_end hcount) hg.length (by omega)

end Sample

end Thorn.FatDriver

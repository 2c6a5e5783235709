import Thorn.FatLookup
import Thorn.FatTree

set_option autoImplicit false

/-!
# What `read` returns

`read` starts in the block its offset falls into and follows the chain from
there. After an unaligned start it goes on in the physically next block before
it returns to the chain.
-/
namespace Thorn.FatDriver
open ByteStore Paths FatTypes FatOperations FatImage LinkedChain

def Driver.refresh (s : Fs) (e : DirEntry) : Fs :=
  if e.start = s.superblock.startBlock then { s with root := { s.root with length := e.length } } else s

def Driver.storeEntry (s : Fs) (e : DirEntry) (o : ℕ) : Fs :=
  if o = mul32 s.superblock.startBlock s.bs then
    ((s.poke o e.encode).poke ((o + sizeofDirEntry) % 2 ^ 64) (e.setName dotDotName).encode).refresh e
  else (s.poke o e.encode).refresh e

section Read
variable {s : Fs}

@[simp] theorem run_refreshRoot (e : DirEntry) (s : Fs) : refreshRoot e s = some (0, s.refresh e) := by
  simp only [refreshRoot, run_bind, run_get, Option.bind_some, run_ite, run_set, Driver.refresh]
  split_ifs <;> rfl

@[simp] theorem run_writeEntry (e : DirEntry) (o : ℕ) (s : Fs) :
    writeEntry e o s = some (0, s.storeEntry e o) := by
  simp only [writeEntry, run_bind, run_partitionWrite, Option.bind_some, run_ite, run_get, run_refreshRoot,
    poke_superblock, ne_eq, not_true_eq_false, lt_self_iff_false, ite_false]
  exact (apply_ite (fun t : Fs => some ((0 : ℤ), t)) _ _ _).symm

theorem div_bs_succ {n m : ℕ} (hm : 0 < m) (h : m ≤ n) : n / m = (n - m) / m + 1 := by
  rw [← Nat.add_div_right _ hm]
  congr 1
  omega

theorem run_readSkipLoop (hg : Geometry s) {b : ℕ} {l : List ℕ}
    (hc : Chain s.image.next s.image.Final b l) (hd : ∀ x ∈ l, s.image.IsData x)
    (offset fuel : ℕ) (hfuel : offset < fuel) (hoff : offset / s.bs < l.length) :
    readSkipLoop s.bs fuel offset b s =
      some (some ((l[offset / s.bs] : ℤ), ((offset % s.bs : ℕ) : ℤ)), s) := by
  have hbs := hg.bs_pos
  induction hc generalizing offset fuel with
  | @last b hf =>
    obtain ⟨fuel, rfl⟩ : ∃ m, fuel = m + 1 := ⟨fuel - 1, by omega⟩
    have hlt : offset < s.bs := by
      simpa [Nat.div_eq_zero_iff, hbs.ne'] using hoff
    rw [readSkipLoop, run_ite, if_neg (by omega), run_pure]
    simp only [Nat.div_eq_of_lt hlt, Nat.mod_eq_of_lt hlt, List.getElem_cons_zero]
  | @link b c l hn t ih =>
    obtain ⟨fuel, rfl⟩ : ∃ m, fuel = m + 1 := ⟨fuel - 1, by omega⟩
    by_cases hlt : offset < s.bs
    · rw [readSkipLoop, run_ite, if_neg (by omega), run_pure]
      simp only [Nat.div_eq_of_lt hlt, Nat.mod_eq_of_lt hlt, List.getElem_cons_zero]
    · have hq := div_bs_succ hbs (Nat.le_of_not_lt hlt)
      have hm : offset % s.bs = (offset - s.bs) % s.bs := Nat.mod_eq_sub_mod (Nat.le_of_not_lt hlt)
      have hcd := (hd c (by simp [t.head_mem])).1
      have hfat := fat_of_next hn
      have hrest := ih (fun x hx => hd x (by simp [hx])) (offset - s.bs) fuel (by omega)
        (by simp only [List.length_cons] at hoff; omega)
      rw [readSkipLoop, run_ite, if_pos (by omega), run_bind, run_readFAT, Option.bind_some, hfat,
        run_ite, if_neg (by omega)]
      rw [← Nat.cast_sub (Nat.le_of_not_lt hlt), hrest]
      simp only [hq, hm, List.getElem_cons_succ]

theorem run_readBlock_short (s : Fs) (size fuel position : ℕ) (block : ℤ) (buffer : List UInt8)
    (h : size ≤ s.bs) : readBlockLoop s.bs (fuel + 1) size position block buffer s =
      some ((0, buffer ++ s.peek position size), s) := by
  rw [readBlockLoop, run_ite]
  by_cases h0 : size = 0
  · simp [h0, Driver.peek]
  · simp only [h0, ite_false, Nat.not_lt.mpr h, run_bind, run_partitionRead, Option.bind_some,
      lt_self_iff_false, run_ite, Nat.sub_self, ite_true, run_pure]

theorem run_readBlock_long (s : Fs) (size fuel position : ℕ) (block : ℤ) (buffer : List UInt8)
    (h : s.bs < size) : readBlockLoop s.bs (fuel + 1) size position block buffer s =
      if s.fat block = FINAL then some ((0, buffer ++ s.peek position s.bs), s)
      else readBlockLoop s.bs fuel (size - s.bs) (toSize (s.fat block * s.bs)) (s.fat block)
        (buffer ++ s.peek position s.bs) s := by
  rw [readBlockLoop, run_ite, if_neg (by omega)]
  simp only [h, ite_true, run_bind, run_partitionRead, Option.bind_some, lt_self_iff_false,
    ite_false, run_ite, Nat.sub_ne_zero_of_lt h, run_readFAT, run_pure]
  rfl

theorem run_readBlockLoop (hg : Geometry s) {b : ℕ} {l : List ℕ}
    (hc : Chain s.image.next s.image.Final b l) (hd : ∀ x ∈ l, s.image.IsData x)
    (size fuel position : ℕ) (buffer : List UInt8) (hfuel : size < fuel)
    (hp : position ≤ s.partition.length) :
    readBlockLoop s.bs fuel size position b buffer s =
      some ((0, buffer ++ (slice s.data position s.bs ++ gather s.data s.bs l.tail).take size), s) := by
  have hbs := hg.bs_pos
  have hpeek : ∀ p n, p ≤ s.partition.length → s.peek p n = slice s.data p n := fun p n h =>
    peek_eq_slice _ _ _ (hg.no_wrap h)
  have hshort : ∀ (m : List UInt8) (p n : ℕ), n ≤ s.bs →
      (slice s.data p s.bs ++ m).take n = slice s.data p n := fun m p n hn => by
    rw [List.take_append_of_le_length (by rw [slice_length]; exact hn), slice_take _ _ _ _ hn]
  induction hc generalizing size fuel position buffer with
  | @last b hf =>
    obtain ⟨fuel, rfl⟩ : ∃ m, fuel = m + 1 := ⟨fuel - 1, by omega⟩
    by_cases hle : size ≤ s.bs
    · rw [run_readBlock_short s _ _ _ _ _ hle, hpeek _ _ hp, hshort _ _ _ hle]
    · have hfat : s.fat b = FINAL := hf
      rw [run_readBlock_long s _ _ _ _ _ (by omega), if_pos hfat, hpeek _ _ hp,
        List.take_of_length_le (by simp; omega)]
      simp
  | @link b c l hn t ih =>
    obtain ⟨fuel, rfl⟩ : ∃ m, fuel = m + 1 := ⟨fuel - 1, by omega⟩
    by_cases hle : size ≤ s.bs
    · rw [run_readBlock_short s _ _ _ _ _ hle, hpeek _ _ hp, hshort _ _ _ hle]
    · have hfat := fat_of_next hn
      have hcd := hd c (by simp [t.head_mem])
      have hend := hg.block_end hcd.2
      have hsize : toSize ((c : ℤ) * s.bs) = c * s.bs := by
        have := hg.block_small hcd.2
        exact_mod_cast toSize_natCast (c * s.bs) (by omega)
      have hl : l = c :: l.tail := by
        have hh := t.head?
        cases l with
        | nil => cases hh
        | cons a l =>
          cases hh
          rfl
      have hnf : (c : ℤ) ≠ FINAL := by
        simp only [FINAL, ne_eq]
        omega
      rw [run_readBlock_long s _ _ _ _ _ (by omega), hfat, if_neg hnf, hsize, hpeek _ _ hp,
        ih (fun x hx => hd x (by simp [hx])) (size - s.bs) fuel (c * s.bs) _ (by omega) (by omega)]
      have htake : ∀ m, (slice s.data position s.bs ++ m).take size =
          slice s.data position s.bs ++ m.take (size - s.bs) := fun m => by
        rw [List.take_append, slice_length, List.take_of_length_le (by rw [slice_length]; omega)]
      have hflat : gather s.data s.bs l = s.block c ++ gather s.data s.bs l.tail := by
        rw [hl, gather_cons]
        rfl
      rw [List.tail_cons, hflat, htake, List.append_assoc]
      rfl

def Driver.readBuffer (s : Fs) (l : List ℕ) (size offset : ℕ) : List UInt8 :=
  let j := offset / s.bs
  let r := offset % s.bs
  let rest := gather s.data s.bs (l.drop (j + 1))
  let b := l.getD j 0
  if r + size ≤ s.bs then slice s.data (b * s.bs + r) size
  else if 0 < r then slice s.data (b * s.bs + r) (s.bs - r) ++
    (s.block (b + 1) ++ rest).take (size - (s.bs - r))
  else (s.block b ++ rest).take size

theorem run_readData (hg : Geometry s) {e : DirEntry} {l : List ℕ} (h : s.image.Owns e l)
    (size offset : ℕ) (hoff : offset / s.bs < l.length) (hsize : size < 2 ^ 31) :
    readData s.bs size (l[offset / s.bs] : ℕ) (offset % s.bs : ℕ) s =
      some ((0, s.readBuffer l size offset), s) := by
  have hbs := hg.bs_pos
  have hr := Nat.mod_lt offset hbs
  have hb := h.data _ (List.getElem_mem hoff)
  have hend := hg.block_end hb.2
  have hsmall := hg.block_small hb.2
  obtain ⟨b₀, -, hc⟩ := h.start
  have hcd := hc.drop _ hoff
  have htail : (l.drop (offset / s.bs)).tail = l.drop (offset / s.bs + 1) := by
    rw [List.tail_drop]
  have hget : l.getD (offset / s.bs) 0 = l[offset / s.bs] := List.getD_eq_getElem _ _ hoff
  have hloop := fun size fuel position buffer h₁ h₂ => run_readBlockLoop hg hcd
    (fun x hx => h.data x (List.mem_of_mem_drop hx)) size fuel position buffer h₁ h₂
  rw [htail] at hloop
  have hfuel := walkFuel_pos s.superblock
  simp only [Driver.readBuffer, hget]
  generalize hq : l[offset / s.bs] = b at *
  generalize hr' : offset % s.bs = r at *
  have hpos : toSize ((b : ℤ) * s.bs + (r : ℕ)) = b * s.bs + r := by
    exact_mod_cast toSize_natCast (b * s.bs + r) (by omega)
  have hsum : toSize (((r : ℕ) : ℤ) + (size : ℕ)) = r + size := by
    exact_mod_cast toSize_natCast (r + size) (by omega)
  simp only [readData, run_get, hpos, hsum, run_ite, run_bind, run_partitionRead, Option.bind_some, run_pure,
    lt_self_iff_false, ite_false]
  split_ifs with h₁ h₂ h₃ h₃
  · rw [peek_eq_slice _ _ _ (hg.no_wrap (by omega))]
  · have hto : ((s.bs : ℤ) - (r : ℕ)).toNat = s.bs - r := by omega
    have hnext : (b * s.bs + r + (s.bs - r)) % 2 ^ 64 = (b + 1) * s.bs := by
      rw [Nat.add_mul, Nat.one_mul]
      omega
    rw [hto, hnext, peek_eq_slice _ _ _ (hg.no_wrap (by omega)), hloop]
    · rfl
    · omega
    · rw [Nat.add_mul, Nat.one_mul]
      exact hend
  · omega
  · omega
  · have hz : r = 0 := by omega
    rw [hz, Nat.add_zero, hloop, List.nil_append]
    · rfl
    · omega
    · omega

end Read

end Thorn.FatDriver

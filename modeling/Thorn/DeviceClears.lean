import Thorn.AHCIRuns
import Thorn.IDEDevice

set_option autoImplicit false

/-!
# Clearing a range of a device

`clear` of both storage devices. Neither sets all of the buffer that it writes:
what is left of the memory before is a parameter.
-/
namespace Thorn

/-- What reading each byte answers is as before, with zeros in the range. -/
def ZeroedRange (before after : ℕ → Option (ℤ × List UInt8)) (offset size limit : ℕ) : Prop :=
  ∀ i < limit, after i = if offset ≤ i ∧ i < offset + size then some (0, [0]) else before i

end Thorn

namespace Thorn.AHCI
open ByteStore

section Clear
variable {π : Type}

def clearLoop (zeroes : List UInt8) : ℕ → ℕ → ℕ → Action π ℤ
  | 0, _, _ => halt
  | fuel + 1, offset, size => do
    if BlockSize < size then do
      let status ← write zeroes offset
      if status ≠ 0 then pure status
      else clearLoop zeroes fuel (offset + BlockSize) (size - BlockSize)
    else write (zeroes.take size) offset

/-- `zeroes` is what the stack holds: the array is not initialised. -/
def clear (zeroes : List UInt8) (offset size : ℕ) : Action π ℤ := clearLoop zeroes (size + 1) offset size

def readByte (d : AHCIDevice π) (i : ℕ) : Option (ℤ × List UInt8) := (read 1 i d).map Prod.fst

def visible (d : AHCIDevice π) : Store := fun i => ((d.cache.map (i / 512)).getD .fresh).data (i % 512)

variable {d : AHCIDevice π} {F : Store} {cap : ℕ} {keys : List ℕ}

theorem visible_tracks (d : AHCIDevice π) : Tracks d (visible d) d.cache.maxSize d.cache.list where
  cap := rfl
  keys := rfl
  agrees b e he i hi := by
    have hdiv : (512 * b + i) / 512 = b := by omega
    have hmod : (512 * b + i) % 512 = i := by omega
    rw [visible, hdiv, hmod, he, Option.getD_some]

theorem visible_absent {b : ℕ} (h : b ∉ d.cache.list) : ZeroBlock (visible d) b := by
  intro i hi
  have hdiv : (512 * b + i) / 512 = b := by omega
  have hnone : d.cache.map b = none := Option.not_isSome_iff_eq_none.mp fun hb => h ((d.cache.keys b).mpr hb)
  rw [visible, hdiv, hnone]
  rfl

theorem visible_ready (d : AHCIDevice π) (b : ℕ) : Ready (visible d) d.cache.list b :=
  (em (b ∈ d.cache.list)).imp_right visible_absent

theorem Tracks.visible (h : Tracks d F cap keys) (i : ℕ) : visible d i = if i / 512 ∈ keys then F i else 0 := by
  have hi := Nat.div_add_mod i 512
  have hmod := Nat.mod_lt i (show 0 < 512 by omega)
  by_cases hk : i / 512 ∈ keys
  · obtain ⟨e, he, hdata⟩ := h.present hk
    rw [if_pos hk, AHCI.visible, he, Option.getD_some, hdata _ hmod, hi]
  · rw [if_neg hk]
    have hzero := visible_absent (h.keys ▸ hk : i / 512 ∉ d.cache.list) (i % 512) hmod
    rwa [hi] at hzero

theorem readByte_eq (d : AHCIDevice π) (i : ℕ) : readByte d i = some (0, [visible d i]) := by
  have hone : blocks (i % 512 + 1) = 1 := blocks_one (by omega) (by omega)
  obtain ⟨d', hrun, -⟩ := run_read (visible_tracks d) 1 i (.inl (by omega))
    (by rw [hone]; exact ⟨fun _ => visible_ready d _, trivial⟩)
  rw [readByte, hrun]
  rfl

theorem write_last (d : AHCIDevice π) {buffer : List UInt8} (offset : ℕ) (h0 : 0 < buffer.length)
    (hlen : buffer.length ≤ 512) : ∃ d', write buffer offset d = some (0, d') ∧
      visible d' (offset + (buffer.length - 1)) = buffer.getD (buffer.length - 1) 0 := by
  have hd := Nat.div_add_mod offset 512
  have hmod := Nat.mod_lt offset (show 0 < 512 by omega)
  have hlast : ∀ {d' : AHCIDevice π} {F : Store} {cap : ℕ} {keys : List ℕ} {o : ℕ} {bytes : List UInt8},
      Tracks d' (patch F o bytes) cap keys → 0 < bytes.length → (o + (bytes.length - 1)) / 512 ∈ keys →
      visible d' (o + (bytes.length - 1)) = bytes.getD (bytes.length - 1) 0 := by
    intro d' F cap keys o bytes h hb hin
    rw [h.visible, if_pos hin, patch_inside _ _ _ _ (by omega), List.getD_eq_getElem _ _ (by omega)]
  -- a run of whole bytes at the start of a block
  have haligned : ∀ (d : AHCIDevice π) (b fuel : ℕ) (bytes : List UInt8),
      0 < bytes.length → bytes.length ≤ 512 → bytes.length ≤ fuel → ∃ d', writeAligned fuel bytes (512 * b) d =
      some (0, d') ∧ visible d' (512 * b + (bytes.length - 1)) = bytes.getD (bytes.length - 1) 0 := by
    intro d b fuel bytes hb hle hfuel
    have hone : blocks bytes.length = 1 := blocks_one hb hle
    obtain ⟨d', hrun, h⟩ :=
      run_writeAligned (b := b) (P := fun _ => True) fuel bytes (visible_tracks d) hb hfuel
      (fun _ _ => trivial) (by rw [hone]; exact ⟨fun _ => visible_ready d b, trivial⟩)
    refine ⟨d', hrun, hlast h hb ?_⟩
    rw [show (512 * b + (bytes.length - 1)) / 512 = b by omega, hone]
    exact Cache.touch_mem _ _ b
  rw [write, writeCache, run_ite]
  by_cases hrem : offset % BlockSize ≠ 0
  · have hrem' : offset % 512 ≠ 0 := hrem
    have hstart : offset - offset % BlockSize = 512 * (offset / 512) := by
      change offset - offset % 512 = _
      omega
    have hcut : (buffer.take (min buffer.length (512 - offset % 512))).length =
        min buffer.length (512 - offset % 512) := by
      rw [List.length_take]
      omega
    obtain ⟨d₁, hhead, h₁⟩ :=
      run_writePart (visible_tracks d) (visible_ready d (offset / 512)) (offset % 512) 512
      (buffer.take (min buffer.length (512 - offset % 512))) (by omega) (by omega) le_rfl
    rw [hd] at h₁
    rw [if_pos hrem, hstart]
    change ∃ d', ((writePart (offset / 512) (offset % 512) 512 (512 * (offset / 512))
      (buffer.take (min buffer.length (512 - offset % 512))) d).bind _) = _ ∧ _
    rw [hhead]
    simp only [Option.bind_some, ne_eq, not_true_eq_false, ite_false, run_ite, run_pure]
    by_cases hend : buffer.length ≤ 512 - offset % 512
    · have hall : buffer.take (min buffer.length (512 - offset % 512)) = buffer :=
        List.take_of_length_le (by omega)
      rw [hall] at h₁
      refine ⟨d₁, if_pos (by change buffer.length - min buffer.length (512 - offset % 512) = 0; omega),
        hlast h₁ h0 ?_⟩
      rw [show (offset + (buffer.length - 1)) / 512 = offset / 512 by omega]
      exact Cache.touch_mem _ _ _
    · have hmin : min buffer.length (BlockSize - offset % BlockSize) = 512 - offset % 512 := by
        change min buffer.length (512 - offset % 512) = _
        omega
      have hdrop : (buffer.drop (512 - offset % 512)).length = buffer.length - (512 - offset % 512) :=
        List.length_drop
      obtain ⟨d₂, hrun, hbyte⟩ :=
        haligned d₁ (offset / 512 + 1) buffer.length (buffer.drop (512 - offset % 512)) (by omega)
        (by omega) (by omega)
      have hnext : offset + (512 - offset % 512) = 512 * (offset / 512 + 1) := by omega
      have hplace : offset + (512 - offset % 512) + (buffer.length - (512 - offset % 512) - 1) =
          offset + (buffer.length - 1) := by
        omega
      have hindex : 512 - offset % 512 + (buffer.length - (512 - offset % 512) - 1) = buffer.length - 1 := by
        omega
      refine ⟨d₂, ?_, ?_⟩
      · rw [if_neg (by omega), hmin, hnext, hrun]
      · rw [hdrop, ← hnext, hplace, List.getD_eq_getElem?_getD, List.getElem?_drop, hindex] at hbyte
        rw [hbyte, List.getD_eq_getElem?_getD]
  · have hrem' : offset % 512 = 0 := not_not.mp hrem
    have hoff : offset = 512 * (offset / 512) := by omega
    obtain ⟨d', hrun, hbyte⟩ := haligned d (offset / 512) (buffer.length + 1) buffer h0 hlen (by omega)
    rw [← hoff] at hrun hbyte
    exact ⟨d', by rw [if_neg hrem, hrun], hbyte⟩

theorem clearLoop_last {zeroes : List UInt8} (hz : zeroes.length = 512) (fuel : ℕ) (d : AHCIDevice π)
    (offset size : ℕ)
    (h0 : 0 < size) (hfuel : size ≤ fuel) :
    ∃ d' k, clearLoop zeroes fuel offset size d = some (0, d') ∧ k < 512 ∧
      visible d' (offset + (size - 1)) = zeroes.getD k 0 := by
  induction fuel generalizing d offset size with
  | zero => omega
  | succ fuel ih =>
    rw [clearLoop, run_ite]
    by_cases hmore : BlockSize < size
    · have hmore' : 512 < size := hmore
      obtain ⟨d₁, hrun, -⟩ := @write_last _ d zeroes offset (by omega) (by omega)
      obtain ⟨d₂, k, hrest, hk, hbyte⟩ := ih d₁ (offset + BlockSize) (size - BlockSize)
        (by change 0 < size - 512; omega) (by change size - 512 ≤ fuel; omega)
      refine ⟨d₂, k, ?_, hk, ?_⟩
      · rw [if_pos hmore, run_bind, hrun, Option.bind_some, run_ite, if_neg (not_not.mpr rfl), hrest]
      · rw [← hbyte, show offset + BlockSize + (size - BlockSize - 1) = offset + (size - 1) by omega]
    · have hless : size ≤ 512 := not_lt.mp hmore
      have hcut : (zeroes.take size).length = size := by
        rw [List.length_take]
        omega
      obtain ⟨d', hrun, hbyte⟩ := @write_last _ d (zeroes.take size) offset (by omega) (by omega)
      refine ⟨d', size - 1, ?_, by omega, ?_⟩
      · rw [if_neg hmore, hrun]
      · rw [hcut] at hbyte
        rw [hbyte, List.getD_eq_getElem?_getD, List.getD_eq_getElem?_getD, List.getElem?_take_of_lt (by omega)]

def ClearsRange (d : AHCIDevice π) (offset size : ℕ) : Prop :=
  ∀ zeroes : List UInt8, zeroes.length = BlockSize → ∃ d', clear zeroes offset size d = some (0, d') ∧
    ∀ limit, ZeroedRange (readByte d) (readByte d') offset size limit

/-- Looking up the block pushes no block with a nonzero byte out of the cache. -/
def Spares (d : AHCIDevice π) (b : ℕ) : Prop :=
  ∀ j ∈ d.cache.list, j ∉ Cache.touch d.cache.maxSize d.cache.list b → ZeroBlock (visible d) j

theorem write_nothing (d : AHCIDevice π) {offset : ℕ} (hrem : offset % 512 ≠ 0) :
    ∃ d', write [] offset d = some (0, d') ∧
    Tracks d' (visible d) d.cache.maxSize (Cache.touch d.cache.maxSize d.cache.list (offset / 512)) := by
  have hone : blocks (offset % 512 + 0) = 1 := blocks_one (by omega) (by omega)
  obtain ⟨d', hrun, h⟩ := run_write (visible_tracks d) [] offset (.inr hrem)
    (by rw [List.length_nil, hone]; exact ⟨fun _ => visible_ready d _, trivial⟩)
  rw [List.length_nil, hone, patch_nil] at h
  exact ⟨d', hrun, h⟩

theorem clearsRange_iff (d : AHCIDevice π) (offset size : ℕ) :
    ClearsRange d offset size ↔ size = 0 ∧ offset % 512 ≠ 0 ∧ Spares d (offset / 512) := by
  rcases Nat.eq_zero_or_pos size with rfl | h0
  · rw [eq_self, true_and]
    have hclear : ∀ zeroes : List UInt8, clear zeroes offset 0 d = write [] offset d := fun zeroes => by
      rw [clear, clearLoop, run_ite, if_neg (Nat.not_lt_zero _), List.take_zero]
    by_cases hrem : offset % 512 = 0
    · -- the assertion of `writeCache` fails
      have hnone : write [] offset d = none := by
        rw [write, writeCache, run_ite, if_neg (not_not.mpr hrem)]
        rfl
      refine iff_of_false (fun h => ?_) fun h => h.1 hrem
      obtain ⟨d', hrun, -⟩ := h (List.replicate BlockSize 0) List.length_replicate
      rw [hclear, hnone] at hrun
      cases hrun
    · obtain ⟨d', hrun, htracks⟩ := write_nothing d hrem
      rw [and_iff_right hrem]
      have hrange : ∀ i, ¬ (offset ≤ i ∧ i < offset + 0) := fun i => by omega
      constructor
      · intro h j hj hout i hi
        obtain ⟨d'', hrun', hsame⟩ := h (List.replicate BlockSize 0) List.length_replicate
        rw [hclear, hrun] at hrun'
        obtain rfl := congrArg Prod.snd (Option.some.inj hrun')
        have hbyte := hsame _ (512 * j + i) (Nat.lt_succ_self _)
        rw [if_neg (hrange _), readByte_eq, readByte_eq, htracks.visible, show (512 * j + i) / 512 = j by omega,
          if_neg hout] at hbyte
        simp only [Option.some.injEq, Prod.mk.injEq, List.cons.injEq, and_true, true_and] at hbyte
        exact hbyte.symm
      · intro h zeroes hz
        refine ⟨d', (hclear zeroes).trans hrun, fun limit i hi => ?_⟩
        rw [if_neg (hrange i), readByte_eq, readByte_eq, htracks.visible]
        split_ifs with hin
        · rfl
        · have hzero : ZeroBlock (visible d) (i / 512) :=
            (em (i / 512 ∈ d.cache.list)).elim (fun hmem => h _ hmem hin) visible_absent
          have hbyte := hzero (i % 512) (Nat.mod_lt _ (by omega))
          rw [Nat.div_add_mod] at hbyte
          rw [hbyte]
  · refine iff_of_false (fun h => ?_) fun h => by omega
    obtain ⟨d', hrun, hzero⟩ := h (List.replicate BlockSize 1) List.length_replicate
    obtain ⟨d'', k, hrun', hk, hbyte⟩ :=
      @clearLoop_last _ (List.replicate BlockSize 1) List.length_replicate (size + 1) d
      offset size h0 (Nat.le_succ size)
    rw [clear, hrun'] at hrun
    obtain rfl := congrArg Prod.snd (Option.some.inj hrun)
    have hlast := hzero _ (offset + (size - 1)) (Nat.lt_succ_self _)
    rw [if_pos (by omega), readByte_eq, hbyte, List.getD_replicate _ hk] at hlast
    simp only [Option.some.injEq, Prod.mk.injEq, List.cons.injEq, and_true, true_and] at hlast
    cases hlast

end Clear

end Thorn.AHCI

namespace Thorn.IDEDevice
open ByteStore IDE

section Clear
variable {σ : Type} [Controller σ]

/-- Sector by sector; `status` is that of the last sector, or what the variable held before. -/
def clearSectorsLoop (ideID offset : ℕ) (buffer : List UInt8) : ℕ → ℕ → ℤ → Action σ ℤ
  | 0, _, status => pure status
  | n + 1, i, _ => do
    let status ← writeSectors ideID 1 ((offset / SECTOR_SIZE + i) % 2 ^ 32) buffer
    if status ≠ 0 then pure status
    else clearSectorsLoop ideID offset buffer n (i + 1) status

/-- The largest power of two up to `SECTOR_SIZE` that divides the size; nine turns reach `SECTOR_SIZE`. -/
def chunkSizeLoop : ℕ → ℕ → ℕ → ℕ
  | 0, _, chunk_size => chunk_size
  | n + 1, size_copy, chunk_size =>
    if size_copy % 2 = 0 ∧ chunk_size < SECTOR_SIZE then chunkSizeLoop n (size_copy / 2) (chunk_size * 2)
    else chunk_size

def chunkSize (size : ℕ) : ℕ := chunkSizeLoop 9 size 1

def clearChunksLoop (ideID offset : ℕ) (buffer : List UInt8) : ℕ → ℕ → Action σ ℤ
  | 0, _ => pure 0
  | n + 1, i => do
    let status ← writeBytes ideID (offset + buffer.length * i) buffer
    if status ≠ 0 then pure status
    else clearChunksLoop ideID offset buffer n (i + 1)

/-- `status` and the heap memory that `new char[chunk_size]` returns are not initialised. -/
def clear (ideID : ℕ) (status : ℤ) (heap : Store) (offset size : ℕ) : Action σ ℤ :=
  if offset % SECTOR_SIZE = 0 ∧ size % SECTOR_SIZE = 0 then
    clearSectorsLoop ideID offset (List.replicate SECTOR_SIZE 0) (size / SECTOR_SIZE) 0 status
  else clearChunksLoop ideID offset (slice heap 0 (chunkSize size)) (size / chunkSize size) 0

def readByte (drive : ℕ) (m : Machine σ) (i : ℕ) : Option (ℤ × List UInt8) := some (read drive 1 i m).1

def ClearsRange (m : Machine σ) (drive S offset size : ℕ) : Prop :=
  ∀ (status : ℤ) (heap : Store), ∃ m', clear drive status heap offset size m = (0, m') ∧
    ZeroedRange (readByte drive m) (readByte drive m') offset size (512 * S)

variable {content : σ → Store} {drive S : ℕ} {m : Machine σ}

theorem readByte_eq (ht : Transfers content drive S) (hp : Present (m.devices drive) drive S) {i : ℕ}
    (hi : i < 512 * S) : readByte drive m i = some (0, [content m.hardware i]) := by
  have hno : ¬ (i % SECTOR_SIZE = 0 ∧ 1 % SECTOR_SIZE = 0) := fun h => absurd h.2 (by decide)
  obtain ⟨h', hrun, -⟩ := run_read ht hp 1 i hi
  rw [if_neg hno] at hrun
  rw [readByte, hrun]
  rfl

theorem run_clearSectorsLoop (ht : Transfers content drive S) (hp : Present (m.devices drive) drive S)
    (offset n i : ℕ) (status : ℤ) (h : offset / 512 + i + n ≤ S) : ∃ h',
    clearSectorsLoop drive offset (List.replicate SECTOR_SIZE 0) n i status m =
      (if n = 0 then status else 0, m.turn h') ∧
      content h' = patch (content m.hardware) (512 * (offset / 512 + i)) (List.replicate (512 * n) 0) := by
  induction n generalizing m i status with
  | zero => exact ⟨m.hardware, rfl, (patch_nil _ _).symm⟩
  | succ n ih =>
    have hS := hp.small
    have hlba : (offset / SECTOR_SIZE + i) % 2 ^ 32 = offset / 512 + i := Nat.mod_eq_of_lt (by
      change offset / 512 + i < _
      omega)
    have hlen : (List.replicate SECTOR_SIZE (0 : UInt8)).length = 512 := List.length_replicate
    obtain ⟨h₁, hw, hc₁⟩ :=
      run_writeSectors (m := m) ht hp (k := 1) (l := offset / 512 + i) (List.replicate SECTOR_SIZE 0)
      (by omega) (by omega)
    obtain ⟨h₂, hrest, hc₂⟩ := ih (m := m.turn h₁) hp (i + 1) 0 (by omega)
    rw [Nat.mul_one, List.take_of_length_le hlen.le] at hc₁
    refine ⟨h₂, ?_, ?_⟩
    · rw [clearSectorsLoop, hlba, run_bind, hw]
      dsimp only
      rw [run_ite, if_neg (not_not.mpr rfl), hrest, if_neg (Nat.succ_ne_zero n), ite_self]
      rfl
    · rw [hc₂]
      change patch (content h₁) _ _ = _
      have hjoin := patch_append (content m.hardware) (512 * (offset / 512 + i)) (List.replicate SECTOR_SIZE 0)
        (List.replicate (512 * n) 0)
      have hn : SECTOR_SIZE + 512 * n = 512 * (n + 1) := by
        change 512 + 512 * n = _
        omega
      rw [hlen, List.replicate_append_replicate] at hjoin
      rw [hc₁, show 512 * (offset / 512 + (i + 1)) = 512 * (offset / 512 + i) + 512 by omega, hjoin, hn]

theorem run_clearChunksLoop (ht : Transfers content drive S)
    (hp : Present (m.devices drive) drive S) {offset : ℕ}
    {buffer : List UInt8} (hun : buffer.length % 512 = 0 → offset % 512 ≠ 0) (n i : ℕ)
    (h : offset + buffer.length * (i + n) ≤ 512 * S) : ∃ h',
    clearChunksLoop drive offset buffer n i m = (0, m.turn h') ∧
      content h' = patch (content m.hardware) (offset + buffer.length * i) (List.replicate n buffer).flatten := by
  induction n generalizing m i with
  | zero => exact ⟨m.hardware, rfl, (patch_nil _ _).symm⟩
  | succ n ih =>
    have hplace : buffer.length * (i + (n + 1)) = buffer.length * i + buffer.length + buffer.length * n := by
      rw [Nat.mul_add, Nat.mul_succ]
      omega
    have hnext : buffer.length * (i + 1) = buffer.length * i + buffer.length := Nat.mul_succ _ _
    have haligned : ¬ (buffer.length % SECTOR_SIZE = 0 ∧ (offset + buffer.length * i) % SECTOR_SIZE = 0) := by
      rintro ⟨h₁, h₂⟩
      have hmul : buffer.length * i % 512 = 0 := by
        rw [Nat.mul_mod, show buffer.length % 512 = 0 from h₁, Nat.zero_mul, Nat.zero_mod]
      have h₂' : (offset + buffer.length * i) % 512 = 0 := h₂
      exact hun h₁ (by omega)
    obtain ⟨h₁, hw, hc₁⟩ := run_writeBytes ht hp (offset + buffer.length * i) buffer haligned (by omega)
    obtain ⟨h₂, hrest, hc₂⟩ := ih (m := m.turn h₁) hp (i + 1) (by
      rw [Nat.add_right_comm, Nat.add_assoc]
      exact h)
    refine ⟨h₂, ?_, ?_⟩
    · rw [clearChunksLoop, run_bind, hw]
      dsimp only
      rw [run_ite, if_neg (not_not.mpr rfl), hrest]
      rfl
    · rw [hc₂]
      change patch (content h₁) _ _ = _
      rw [hc₁, hnext, ← Nat.add_assoc, patch_append, List.replicate_succ, List.flatten_cons]

theorem chunkSizeLoop_pow (n s k : ℕ) (hk : k ≤ 9) :
    ∃ j, j ≤ 9 ∧ chunkSizeLoop n s (2 ^ k) = 2 ^ j ∧ 2 ^ j ∣ 2 ^ k * s := by
  induction n generalizing s k with
  | zero => exact ⟨k, hk, rfl, dvd_mul_right _ _⟩
  | succ n ih =>
    rw [chunkSizeLoop]
    split_ifs with hc
    · have hlt : k < 9 := (Nat.pow_lt_pow_iff_right (by omega)).mp (show 2 ^ k < 2 ^ 9 from hc.2)
      obtain ⟨j, hj, hrun, hdvd⟩ := ih (s / 2) (k + 1) hlt
      refine ⟨j, hj, hrun, ?_⟩
      rwa [pow_succ, Nat.mul_assoc, Nat.mul_div_cancel' (Nat.dvd_of_mod_eq_zero hc.1)] at hdvd
    · exact ⟨k, hk, rfl, dvd_mul_right _ _⟩

theorem chunkSize_dvd (size : ℕ) : 0 < chunkSize size ∧ chunkSize size ∣ size ∧
    (chunkSize size % 512 = 0 → size % 512 = 0) := by
  obtain ⟨j, hj, hrun, hdvd⟩ := chunkSizeLoop_pow 9 size 0 (by omega)
  have hsize : chunkSize size = 2 ^ j := hrun
  rw [pow_zero, Nat.one_mul] at hdvd
  refine ⟨hsize ▸ Nat.two_pow_pos j, hsize ▸ hdvd, fun h => ?_⟩
  exact Nat.mod_eq_zero_of_dvd ((Nat.dvd_of_mod_eq_zero h).trans (hsize ▸ hdvd))

theorem run_clear_aligned (ht : Transfers content drive S)
    (hp : Present (m.devices drive) drive S) {offset size : ℕ}
    (h : offset + size ≤ 512 * S) (ha : offset % 512 = 0 ∧ size % 512 = 0) (status : ℤ) (heap : Store) : ∃ h',
    clear drive status heap offset size m = (if size = 0 then status else 0, m.turn h') ∧
      content h' = patch (content m.hardware) offset (List.replicate size 0) := by
  obtain ⟨h', hrun, hc⟩ := run_clearSectorsLoop ht hp offset (size / 512) 0 status (by omega)
  refine ⟨h', ?_, ?_⟩
  · rw [clear, run_ite, if_pos ha, hrun]
    congr 1
    by_cases h0 : size = 0
    · rw [if_pos h0, if_pos (by omega)]
    · rw [if_neg h0, if_neg (by omega)]
  · rw [hc, Nat.add_zero, show 512 * (offset / 512) = offset by omega, show 512 * (size / 512) = size by omega]

theorem run_clear_unaligned (ht : Transfers content drive S)
    (hp : Present (m.devices drive) drive S) {offset size : ℕ}
    (h : offset + size ≤ 512 * S) (ha : ¬ (offset % 512 = 0 ∧ size % 512 = 0)) (status : ℤ) (heap : Store) :
    ∃ h',
    clear drive status heap offset size m = (0, m.turn h') ∧ content h' = patch (content m.hardware) offset
      (List.replicate (size / chunkSize size) (slice heap 0 (chunkSize size))).flatten := by
  obtain ⟨hpos, hdvd, hfull⟩ := chunkSize_dvd size
  have hmul : chunkSize size * (size / chunkSize size) = size := Nat.mul_div_cancel' hdvd
  have hun : (slice heap 0 (chunkSize size)).length % 512 = 0 → offset % 512 ≠ 0 := by
    rw [slice_length]
    exact fun hz ho => ha ⟨ho, hfull hz⟩
  obtain ⟨h', hrun, hc⟩ := run_clearChunksLoop ht hp hun (size / chunkSize size) 0
    (by rw [slice_length, Nat.zero_add, hmul]; exact h)
  refine ⟨h', ?_, by rw [hc, Nat.mul_zero, Nat.add_zero]⟩
  rw [clear, run_ite, if_neg ha, hrun]

theorem clearsRange_iff (ht : Transfers content drive S)
    (hp : Present (m.devices drive) drive S) {offset size : ℕ}
    (h : offset + size ≤ 512 * S) : ClearsRange m drive S offset size ↔
      offset % 512 = 0 ∧ size % 512 = 0 ∧ 0 < size ∨ offset % 512 ≠ 0 ∧ size = 0 := by
  by_cases ha : offset % 512 = 0 ∧ size % 512 = 0
  · have hiff : (offset % 512 = 0 ∧ size % 512 = 0 ∧ 0 < size ∨ offset % 512 ≠ 0 ∧ size = 0) ↔ 0 < size := by
      omega
    rw [hiff]
    constructor
    · intro hclear
      obtain ⟨m', hrun, -⟩ := hclear 1 fun _ => 0
      obtain ⟨h', hrun', -⟩ := run_clear_aligned ht hp h ha 1 fun _ => 0
      rw [hrun'] at hrun
      by_contra h0
      rw [if_pos (by omega)] at hrun
      cases congrArg Prod.fst hrun
    · intro h0 status heap
      obtain ⟨h', hrun, hc⟩ := run_clear_aligned ht hp h ha status heap
      rw [if_neg h0.ne'] at hrun
      refine ⟨m.turn h', hrun, fun i hi => ?_⟩
      rw [readByte_eq (m := m.turn h') ht hp hi, readByte_eq ht hp hi]
      change some (0, [content h' i]) = _
      rw [hc]
      split_ifs with hin
      · obtain ⟨j, rfl⟩ : ∃ j, i = offset + j := ⟨i - offset, by omega⟩
        rw [patch_inside _ _ _ _ (by rw [List.length_replicate]; omega), List.getElem_replicate]
      · rw [patch_outside _ _ _ _ (by rw [List.length_replicate]; omega)]
  · have hiff : (offset % 512 = 0 ∧ size % 512 = 0 ∧ 0 < size ∨ offset % 512 ≠ 0 ∧ size = 0) ↔ size = 0 := by
      omega
    rw [hiff]
    constructor
    · intro hclear
      by_contra h0
      obtain ⟨m', hrun, hzero⟩ := hclear 0 fun _ => 1
      obtain ⟨h', hrun', hc⟩ := run_clear_unaligned ht hp h ha 0 fun _ => 1
      rw [hrun'] at hrun
      obtain rfl := congrArg Prod.snd hrun
      have hfirst := hzero offset (by omega)
      rw [if_pos (by omega), readByte_eq (m := m.turn h') ht hp (by omega)] at hfirst
      change some (0, [content h' offset]) = _ at hfirst
      obtain ⟨hpos, hdvd, -⟩ := chunkSize_dvd size
      have hq : 0 < size / chunkSize size := Nat.div_pos (Nat.le_of_dvd (by omega) hdvd) hpos
      obtain ⟨q, hq'⟩ : ∃ q, size / chunkSize size = q + 1 := ⟨size / chunkSize size - 1, by omega⟩
      obtain ⟨c, hc'⟩ : ∃ c, chunkSize size = 1 + c := ⟨chunkSize size - 1, by omega⟩
      rw [hq', hc', List.replicate_succ, List.flatten_cons, slice_add] at hc
      have hone : content h' offset = 1 := by
        rw [hc]
        exact patch_inside (content m.hardware) offset _ 0 (by simp)
      rw [hone] at hfirst
      simp only [Option.some.injEq, Prod.mk.injEq, List.cons.injEq, and_true, true_and] at hfirst
      cases hfirst
    · rintro rfl status heap
      obtain ⟨h', hrun, hc⟩ := run_clear_unaligned ht hp h ha status heap
      rw [Nat.zero_div, List.replicate_zero, List.flatten_nil, patch_nil] at hc
      refine ⟨m.turn h', hrun, fun i hi => ?_⟩
      rw [readByte_eq (m := m.turn h') ht hp hi, readByte_eq ht hp hi, if_neg (by omega)]
      change some (0, [content h' i]) = _
      rw [hc]

end Clear

end Thorn.IDEDevice

namespace Thorn
open ByteStore

section Clears
variable {π σ : Type} [IDE.Controller σ]

/-- When the devices clear exactly the range, whatever the memory held before. -/
theorem clears_iff {content : σ → Store} {drive S : ℕ} {m : IDE.Machine σ} (ht : IDE.Transfers content drive S)
    (hp : IDE.Present (m.devices drive) drive S) (d : AHCI.AHCIDevice π) (offset size : ℕ)
    (h : offset + size ≤ 512 * S) :
    (IDEDevice.ClearsRange m drive S offset size ↔
      offset % 512 = 0 ∧ size % 512 = 0 ∧ 0 < size ∨ offset % 512 ≠ 0 ∧ size = 0) ∧
    (AHCI.ClearsRange d offset size ↔ size = 0 ∧ offset % 512 ≠ 0 ∧ AHCI.Spares d (offset / 512)) :=
  ⟨IDEDevice.clearsRange_iff ht hp h, AHCI.clearsRange_iff d offset size⟩

end Clears

/-- One sector of each device is to be cleared. -/
theorem clears_sector : (IDEDevice.ClearsRange IDEDevice.ones 0 256 512 512 ↔
      512 % 512 = 0 ∧ 512 % 512 = 0 ∧ 0 < 512 ∨ 512 % 512 ≠ 0 ∧ 512 = 0) ∧
    (AHCI.ClearsRange (AHCI.fresh fun _ => 1) 512 512 ↔
      512 = 0 ∧ 512 % 512 ≠ 0 ∧ AHCI.Spares (AHCI.fresh fun _ => 1) (512 / 512)) :=
  clears_iff (IDEDevice.flatDrive_transfers 0 256) IDEDevice.ones_present (AHCI.fresh fun _ => 1) 512 512 (by omega)

/-- A sector of the one device, and three bytes of the other, take what memory held. -/
theorem clears_garbage : ¬ AHCI.ClearsRange (AHCI.fresh fun _ => 1) 512 512 ∧
    ¬ IDEDevice.ClearsRange IDEDevice.ones 0 256 100 3 := by
  constructor
  · intro h
    have hsize := ((AHCI.clearsRange_iff _ _ _).mp h).1
    cases hsize
  · intro h
    have hrange := (IDEDevice.clearsRange_iff (IDEDevice.flatDrive_transfers 0 256) IDEDevice.ones_present
      (show 100 + 3 ≤ 512 * 256 by omega)).mp h
    omega

end Thorn
